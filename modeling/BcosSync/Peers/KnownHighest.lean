import BcosSync.Peers.Table
import Mathlib.Data.List.Induction

/-!
# The highest known number

The config keeps the highest number the node has heard of, together with the
hash that came with it.  The pair is written when the config is reset and when
a peer status is taken over.  The module shows that it is the running maximum
of these reports over any sequence of operations, and that every step of the
node is such a sequence.
-/

namespace BcosSync

open BlockSync

namespace PeerSide

/-! ## Operations -/

/-- The operations on the config and the peer table. -/
inductive Operation
  | peerStatus (nodeID : PublicPtr) (syncMsg : BlockSyncMessage)
  | resetConfig (ledgerConfig : LedgerConfig)
  | insertEmptyPeer (nodeID : PublicPtr)
  | deletePeer (nodeID : PublicPtr)
  | ownStatus
  | pushRequest (nodeID : PublicPtr) (number size : ℤ)
  | setExecutedBlock (executedBlock : ℤ)
  | notifyCommittedIndex (number : ℤ)
  | notifyConnectedNodes (nodes : List PublicPtr)

/-- `updatePeerStatus`, on the config and the table together. -/
def updatePeerStatus (peer : PublicPtr) (status : BlockSyncStatus)
    (p : PeerSide) : PeerSide where
  config := (SyncPeerStatus.updatePeerStatus peer status p.syncStatus
    p.config).2
  syncStatus := (SyncPeerStatus.updatePeerStatus peer status p.syncStatus
    p.config).1

/-- The sender is in the group, or it is ahead of the node. -/
def Admits (p : PeerSide) (nodeID : PublicPtr) (syncMsg : BlockSyncMessage) :
    Prop :=
  p.config.existsInGroup nodeID = true ∨ p.config.blockNumber < syncMsg.number

instance (p : PeerSide) (nodeID : PublicPtr) (syncMsg : BlockSyncMessage) :
    Decidable (p.Admits nodeID syncMsg) :=
  inferInstanceAs (Decidable (_ ∨ _))

def apply (p : PeerSide) : Operation → PeerSide
  | .peerStatus nodeID syncMsg =>
      if p.Admits nodeID syncMsg then
        p.updatePeerStatus nodeID (BlockSyncStatus.ofMessage syncMsg)
      else p
  | .resetConfig l => { p with config := p.config.resetConfig l }
  | .insertEmptyPeer nodeID =>
      { p with syncStatus := p.syncStatus.insertEmptyPeer nodeID }
  | .deletePeer nodeID =>
      { p with syncStatus := p.syncStatus.deletePeer nodeID }
  | .ownStatus => p.updatePeerStatus p.config.nodeID (currentStatus p.config)
  | .pushRequest nodeID number size =>
      match p.syncStatus.peerStatus nodeID with
      | none => p
      | some peer =>
          { p with
            syncStatus := p.syncStatus.replace nodeID.data
              { peer with
                downloadRequests := peer.downloadRequests.push
                  p.config.maxDownloadRequestQueueSize number size } }
  | .setExecutedBlock n => { p with config := p.config.setExecutedBlock n }
  | .notifyCommittedIndex n =>
      { p with config := { p.config with committedProposalNumber := n } }
  | .notifyConnectedNodes nodes =>
      { p with config := { p.config with connectedNodeList := nodes } }

def run (p : PeerSide) (ops : List Operation) : PeerSide := ops.foldl apply p

/-! ## Reports -/

/-- A block number and the hash that comes with it. -/
structure Report where
  number : ℤ
  hash : HashType
deriving DecidableEq

/-- What an operation reports: the block a config installs, or a status that
is accepted. -/
def report (p : PeerSide) : Operation → Option Report
  | .peerStatus nodeID syncMsg =>
      let status := BlockSyncStatus.ofMessage syncMsg
      if p.Admits nodeID syncMsg ∧
          status.genesisHash = p.config.genesisHash then
        some ⟨status.number, status.hash⟩
      else none
  | .resetConfig l =>
      if p.config.ignores l then none else some ⟨l.blockNumber, l.hash⟩
  | _ => none

/-- The reports of a sequence of operations, in order. -/
def reports (p : PeerSide) : List Operation → List Report
  | [] => []
  | op :: ops => (p.report op).toList ++ reports (p.apply op) ops

/-- A status with another genesis hash. -/
def Operation.IsForeign (genesisHash : HashType) : Operation → Prop
  | .peerStatus _ syncMsg =>
      (BlockSyncStatus.ofMessage syncMsg).genesisHash ≠ genesisHash
  | _ => False

instance (genesisHash : HashType) :
    DecidablePred (Operation.IsForeign genesisHash) := fun op => by
  cases op <;> unfold Operation.IsForeign <;> infer_instance

/-- The highest number the config knows, and its hash. -/
def known (p : PeerSide) : Report where
  number := p.config.knownHighestNumber
  hash := p.config.knownLatestHash

/-- `k` is replaced by a report with a higher number. -/
def Report.raise (r k : Report) : Report := if k.number < r.number then r else k

theorem Report.number_raise (r k : Report) :
    (r.raise k).number = max k.number r.number := by
  unfold raise
  split_ifs with hlt
  · exact (max_eq_right hlt.le).symm
  · exact (max_eq_left (not_lt.mp hlt)).symm

/-- `k` holds the maximum of 0 and the numbers of the reports, and the hash
of the first report that reached it. -/
structure RunningMaximum (genesisHash : HashType) (rs : List Report)
    (k : Report) : Prop where
  number_eq : k.number = (rs.map Report.number).foldl max 0
  hash_of_zero : k.number = 0 → k.hash = genesisHash
  first_of_ne_zero : k.number ≠ 0 → ∃ before after,
    rs = before ++ k :: after ∧ ∀ r ∈ before, r.number < k.number

namespace RunningMaximum

variable {genesisHash : HashType} {rs : List Report} {k : Report}

theorem foldl_max_append (r : Report) :
    ((rs ++ [r]).map Report.number).foldl max 0 =
      max ((rs.map Report.number).foldl max 0) r.number := by
  rw [List.map_append, List.foldl_append]
  rfl

theorem bounds (h : RunningMaximum genesisHash rs k) :
    0 ≤ k.number ∧ ∀ r ∈ rs, r.number ≤ k.number := by
  rw [h.number_eq]
  clear h
  induction rs using List.reverseRecOn with
  | nil => exact ⟨le_rfl, fun r hr => absurd hr List.not_mem_nil⟩
  | append_singleton rs r ih =>
      rw [foldl_max_append]
      refine ⟨ih.1.trans (le_max_left _ _), fun r' hr' => ?_⟩
      rcases List.mem_append.mp hr' with hr' | hr'
      · exact (ih.2 r' hr').trans (le_max_left _ _)
      · rw [List.mem_singleton.mp hr']
        exact le_max_right _ _

/-- One more report. -/
theorem append (h : RunningMaximum genesisHash rs k) (r : Report) :
    RunningMaximum genesisHash (rs ++ [r]) (r.raise k) := by
  obtain ⟨hnonneg, hle⟩ := h.bounds
  unfold Report.raise
  split_ifs with hlt
  · refine ⟨?_, fun hzero => by omega, fun _ => ⟨rs, [], rfl, ?_⟩⟩
    · rw [foldl_max_append, ← h.number_eq, max_eq_right hlt.le]
    · exact fun r' hr' => (hle r' hr').trans_lt hlt
  · refine ⟨?_, h.hash_of_zero, fun hne => ?_⟩
    · rw [foldl_max_append, ← h.number_eq, max_eq_left (not_lt.mp hlt)]
    · obtain ⟨before, after, hrs, hbefore⟩ := h.first_of_ne_zero hne
      refine ⟨before, after ++ [r], ?_, hbefore⟩
      rw [hrs, List.append_assoc, List.cons_append]

end RunningMaximum

/-! ## One operation -/

/-- What holds of the config and the table after the reports `rs`. -/
structure Informed (genesisHash : HashType) (rs : List Report)
    (p : PeerSide) : Prop where
  genesisHash_eq : p.config.genesisHash = genesisHash
  known : RunningMaximum genesisHash rs p.known
  blockNumber_le : p.config.blockNumber ≤ p.config.knownHighestNumber
  entries : p.syncStatus.Forall fun _ peer =>
    peer.number ≤ p.config.knownHighestNumber ∧
      (peer.genesisHash = HashType.zero ∨ peer.genesisHash = genesisHash)

variable {genesisHash : HashType} {rs : List Report} {p : PeerSide}

/-- The pair after an accepted status is the report of the status or the old
pair, whichever number is higher. -/
theorem known_updateKnownMaxBlockInfo {status : BlockSyncStatus}
    {c : BlockSyncConfig} (hgenesis : status.genesisHash = c.genesisHash)
    (t : SyncPeerStatus) :
    (⟨SyncPeerStatus.updateKnownMaxBlockInfo status c, t⟩ : PeerSide).known =
      Report.raise ⟨status.number, status.hash⟩ (known ⟨c, t⟩) := by
  unfold SyncPeerStatus.updateKnownMaxBlockInfo Report.raise
  rw [if_neg (not_not_intro hgenesis)]
  split_ifs with hle hlt hlt
  · exact absurd hlt (not_lt.mpr hle)
  · rfl
  · rfl
  · exact absurd (lt_of_not_ge hle) hlt

/-- A known number changes nothing. -/
theorem updateKnownMaxBlockInfo_of_le {status : BlockSyncStatus}
    {c : BlockSyncConfig} (hle : status.number ≤ c.knownHighestNumber) :
    SyncPeerStatus.updateKnownMaxBlockInfo status c = c := by
  unfold SyncPeerStatus.updateKnownMaxBlockInfo
  rw [if_pos hle, ite_self]

theorem updatePeerStatus_of_foreign {status : BlockSyncStatus}
    (hforeign : status.genesisHash ≠ p.config.genesisHash)
    (peer : PublicPtr) : p.updatePeerStatus peer status = p := by
  unfold updatePeerStatus SyncPeerStatus.updatePeerStatus
  rw [if_pos hforeign]

namespace Informed

/-- Under an informed config, a status of the own chain reaches the pair even
if the entry of its sender did not change: then the number was known. -/
theorem config_updatePeerStatus (h : Informed genesisHash rs p)
    {status : BlockSyncStatus} (hstatus : status.genesisHash = genesisHash)
    (peer : PublicPtr) :
    (p.updatePeerStatus peer status).config =
      SyncPeerStatus.updateKnownMaxBlockInfo status p.config := by
  have hown : status.genesisHash = p.config.genesisHash :=
    hstatus.trans h.genesisHash_eq.symm
  unfold PeerSide.updatePeerStatus SyncPeerStatus.updatePeerStatus
  rw [if_neg (not_not_intro hown)]
  split
  · next entry hentry =>
      obtain ⟨hnumber, hgenesis⟩ := h.entries _ _ hentry
      unfold PeerStatus.update
      split_ifs with hsame hother
      · have hknown : status.number ≤ p.config.knownHighestNumber :=
          hsame.2.trans_le hnumber
        exact (updateKnownMaxBlockInfo_of_le hknown).symm
      · rcases hgenesis with hzero | heq
        · exact absurd hzero hother.1
        · exact absurd (hstatus.trans heq.symm) hother.2
      · rfl
      · rfl
  · rfl

theorem entries_updatePeerStatus (h : Informed genesisHash rs p)
    {status : BlockSyncStatus} (hstatus : status.genesisHash = genesisHash)
    (peer : PublicPtr) :
    (p.updatePeerStatus peer status).syncStatus.Forall fun _ entry =>
      entry.number ≤ max p.config.knownHighestNumber status.number ∧
        (entry.genesisHash = HashType.zero ∨
          entry.genesisHash = genesisHash) := by
  apply SyncPeerStatus.Forall.updatePeerStatus
  · intro id entry hentry
    exact ⟨(h.entries id entry hentry).1.trans (le_max_left _ _),
      (h.entries id entry hentry).2⟩
  · intro entry hentry
    unfold PeerStatus.update
    split_ifs with hsame hother hzero
    · exact hentry
    · exact hentry
    · exact ⟨le_max_right _ _, .inr hstatus⟩
    · exact ⟨le_max_right _ _, hentry.2⟩
  · exact ⟨le_max_right _ _, .inr hstatus⟩

/-- An accepted status. -/
theorem accept (h : Informed genesisHash rs p) {status : BlockSyncStatus}
    (hstatus : status.genesisHash = genesisHash) (peer : PublicPtr) :
    Informed genesisHash (rs ++ [⟨status.number, status.hash⟩])
      (p.updatePeerStatus peer status) := by
  have hconfig := h.config_updatePeerStatus hstatus peer
  have hknown : (p.updatePeerStatus peer status).known =
      Report.raise ⟨status.number, status.hash⟩ p.known := by
    have hown := hstatus.trans h.genesisHash_eq.symm
    rw [← known_updateKnownMaxBlockInfo hown p.syncStatus, ← hconfig]
    rfl
  have hnumber : (p.updatePeerStatus peer status).config.knownHighestNumber =
      max p.config.knownHighestNumber status.number := by
    have hraise := Report.number_raise ⟨status.number, status.hash⟩ p.known
    rw [← hknown] at hraise
    exact hraise
  refine ⟨?_, ?_, ?_, ?_⟩
  · rw [hconfig, SyncPeerStatus.updateKnownMaxBlockInfo]
    split_ifs <;> exact h.genesisHash_eq
  · rw [hknown]
    exact h.known.append _
  · have hsame : (p.updatePeerStatus peer status).config.blockNumber =
        p.config.blockNumber := by
      rw [hconfig, SyncPeerStatus.updateKnownMaxBlockInfo]
      split_ifs <;> rfl
    rw [hsame, hnumber]
    exact h.blockNumber_le.trans (le_max_left _ _)
  · rw [hnumber]
    exact h.entries_updatePeerStatus hstatus peer

/-- The own status is no news. -/
theorem config_ownStatus (h : Informed genesisHash rs p) (peer : PublicPtr) :
    (p.updatePeerStatus peer (currentStatus p.config)).config = p.config := by
  rw [h.config_updatePeerStatus h.genesisHash_eq]
  exact updateKnownMaxBlockInfo_of_le h.blockNumber_le

theorem ownStatus (h : Informed genesisHash rs p) (peer : PublicPtr) :
    Informed genesisHash rs
      (p.updatePeerStatus peer (currentStatus p.config)) := by
  have hconfig := h.config_ownStatus peer
  have hmax : max p.config.knownHighestNumber
      (currentStatus p.config).number = p.config.knownHighestNumber :=
    max_eq_left h.blockNumber_le
  have hentries := h.entries_updatePeerStatus
    (show (currentStatus p.config).genesisHash = genesisHash from
      h.genesisHash_eq) peer
  rw [hmax] at hentries
  have hknown : (p.updatePeerStatus peer
      (currentStatus p.config)).known = p.known := by
    unfold PeerSide.known
    rw [hconfig]
  refine ⟨?_, hknown ▸ h.known, ?_, ?_⟩
  · rw [hconfig]
    exact h.genesisHash_eq
  · rw [hconfig]
    exact h.blockNumber_le
  · rw [hconfig]
    exact hentries

/-- A config that is taken over. -/
theorem resetConfig (h : Informed genesisHash rs p) {l : LedgerConfig}
    (hl : ¬ p.config.ignores l) :
    Informed genesisHash (rs ++ [⟨l.blockNumber, l.hash⟩])
      { p with config := p.config.resetConfig l } := by
  have hknown : PeerSide.known
      { p with config := p.config.resetConfig l } =
        Report.raise ⟨l.blockNumber, l.hash⟩ p.known := by
    rw [BlockSyncConfig.resetConfig, if_neg hl]
    unfold BlockSyncConfig.resetBlockInfo Report.raise PeerSide.known
    dsimp only
    split_ifs <;> rfl
  have hnumber : (p.config.resetConfig l).knownHighestNumber =
      max p.config.knownHighestNumber l.blockNumber := by
    have hraise := Report.number_raise ⟨l.blockNumber, l.hash⟩ p.known
    rw [← hknown] at hraise
    exact hraise
  refine ⟨?_, ?_, ?_, ?_⟩
  · rw [BlockSyncConfig.resetConfig, if_neg hl]
    unfold BlockSyncConfig.resetBlockInfo
    dsimp only
    split_ifs <;> exact h.genesisHash_eq
  · rw [hknown]
    exact h.known.append _
  · dsimp only
    rw [hnumber, BlockSyncConfig.resetConfig_blockNumber hl]
    exact le_max_right _ _
  · intro id entry hentry
    obtain ⟨hle, hgenesis⟩ := h.entries id entry hentry
    refine ⟨?_, hgenesis⟩
    dsimp only
    rw [hnumber]
    exact hle.trans (le_max_left _ _)

/-- The step lemma. -/
theorem apply (h : Informed genesisHash rs p) (op : Operation) :
    Informed genesisHash (rs ++ (p.report op).toList) (p.apply op) := by
  have hquiet : Informed genesisHash (rs ++ []) p := by
    rw [List.append_nil]
    exact h
  cases op with
  | peerStatus nodeID syncMsg =>
      rw [PeerSide.apply, report]
      by_cases hadmits : p.Admits nodeID syncMsg
      · rw [if_pos hadmits]
        split_ifs with haccepted
        · exact h.accept (haccepted.2.trans h.genesisHash_eq) nodeID
        · have hforeign : (BlockSyncStatus.ofMessage syncMsg).genesisHash ≠
              p.config.genesisHash := fun heq => haccepted ⟨hadmits, heq⟩
          rw [updatePeerStatus_of_foreign hforeign]
          exact hquiet
      · rw [if_neg hadmits, if_neg fun haccepted => hadmits haccepted.1]
        exact hquiet
  | resetConfig l =>
      rw [PeerSide.apply, report]
      split_ifs with hignored
      · rw [BlockSyncConfig.resetConfig_of_ignores hignored]
        exact hquiet
      · exact h.resetConfig hignored
  | insertEmptyPeer nodeID =>
      refine ⟨h.genesisHash_eq, hquiet.known, h.blockNumber_le, ?_⟩
      exact SyncPeerStatus.Forall.insertEmptyPeer h.entries
        ⟨h.known.bounds.1, .inl rfl⟩
  | deletePeer nodeID =>
      refine ⟨h.genesisHash_eq, hquiet.known, h.blockNumber_le, ?_⟩
      exact SyncPeerStatus.Forall.deletePeer h.entries nodeID
  | ownStatus =>
      have hown := hquiet.ownStatus p.config.nodeID
      exact hown
  | pushRequest nodeID number size =>
      rw [PeerSide.apply]
      split
      · exact hquiet
      · next peer hpeer =>
          refine ⟨h.genesisHash_eq, hquiet.known, h.blockNumber_le, ?_⟩
          exact SyncPeerStatus.Forall.replace h.entries
            (h.entries _ peer hpeer)
  | setExecutedBlock n =>
      rw [PeerSide.apply, BlockSyncConfig.setExecutedBlock]
      split_ifs
      · exact ⟨h.genesisHash_eq, hquiet.known, h.blockNumber_le, h.entries⟩
      · exact hquiet
  | notifyCommittedIndex n =>
      exact ⟨h.genesisHash_eq, hquiet.known, h.blockNumber_le, h.entries⟩
  | notifyConnectedNodes nodes =>
      exact ⟨h.genesisHash_eq, hquiet.known, h.blockNumber_le, h.entries⟩

end Informed

/-! ## Runs -/

theorem Informed.run (h : Informed genesisHash rs p) (ops : List Operation) :
    Informed genesisHash (rs ++ p.reports ops) (p.run ops) := by
  induction ops generalizing rs p with
  | nil =>
      rw [reports, List.append_nil]
      exact h
  | cons op ops ih =>
      rw [reports, ← List.append_assoc]
      exact ih (h.apply op)

/-- More reports do not lower the maximum. -/
theorem RunningMaximum.number_le {rs' : List Report} {k k' : Report}
    (h : RunningMaximum genesisHash rs k)
    (h' : RunningMaximum genesisHash (rs ++ rs') k') :
    k.number ≤ k'.number := by
  by_cases hzero : k.number = 0
  · rw [hzero]
    exact h'.bounds.1
  · obtain ⟨before, after, hrs, -⟩ := h.first_of_ne_zero hzero
    apply h'.bounds.2 k
    rw [hrs]
    exact List.mem_append_left _
      (List.mem_append_right _ List.mem_cons_self)

/-- A status of another chain changes nothing. -/
theorem apply_of_isForeign {op : Operation}
    (hforeign : op.IsForeign p.config.genesisHash) : p.apply op = p := by
  cases op with
  | peerStatus nodeID syncMsg =>
      rw [apply, updatePeerStatus_of_foreign hforeign, ite_self]
  | _ => exact hforeign.elim

/-- The statuses of other chains can be left out. -/
theorem Informed.run_filter (h : Informed genesisHash rs p)
    (ops : List Operation) :
    p.run (ops.filter fun op => ¬ op.IsForeign genesisHash) = p.run ops := by
  induction ops generalizing rs p with
  | nil => rfl
  | cons op ops ih =>
      by_cases hforeign : op.IsForeign genesisHash
      · rw [List.filter_cons_of_neg (by simpa using hforeign), ih h]
        have hsame : p.apply op = p :=
          apply_of_isForeign (h.genesisHash_eq ▸ hforeign)
        unfold PeerSide.run
        rw [List.foldl_cons, hsame]
      · rw [List.filter_cons_of_pos (by simpa using hforeign)]
        exact ih (h.apply op)

/-- The config when `init` has set the genesis hash, and the empty table. -/
def new (c : BlockSyncConfig) (genesisHash : HashType) : PeerSide where
  config := c.setGenesisHash genesisHash
  syncStatus := ∅

theorem informed_new {c : BlockSyncConfig} (hc : IsFreshConfig c)
    (genesisHash : HashType) :
    Informed genesisHash [] (new c genesisHash) := by
  have hconfig : (new c genesisHash).config =
      { c with genesisHash := genesisHash, knownLatestHash := genesisHash } := by
    unfold new BlockSyncConfig.setGenesisHash
    dsimp only
    rw [if_pos hc.knownLatestHash]
    rfl
  have hnumber : (new c genesisHash).config.knownHighestNumber = 0 :=
    (congrArg _ hconfig).trans hc.knownHighestNumber
  refine ⟨congrArg _ hconfig, ⟨hnumber, ?_, ?_⟩, ?_, ?_⟩
  · exact fun _ => congrArg BlockSyncConfig.knownLatestHash hconfig
  · exact fun hne => absurd hnumber hne
  · rw [hnumber, hconfig]
    exact hc.blockNumber.le
  · intro id entry hentry
    cases hentry

/-- The highest known number is the running maximum of the trusted reports.
The first reset of the sequence is the one `init` makes. -/
theorem run_known_runningMaximum {c : BlockSyncConfig}
    (hc : IsFreshConfig c) (genesisHash : HashType)
    (ops : List Operation) :
    RunningMaximum genesisHash ((new c genesisHash).reports ops)
        ((new c genesisHash).run ops).known ∧
      (∀ before after, ops = before ++ after →
        ((new c genesisHash).run before).config.knownHighestNumber ≤
          ((new c genesisHash).run ops).config.knownHighestNumber) ∧
      ((new c genesisHash).run ops).config.blockNumber ≤
        ((new c genesisHash).run ops).config.knownHighestNumber ∧
      (((new c genesisHash).run ops).syncStatus.Forall fun _ peer =>
        peer.number ≤
          ((new c genesisHash).run ops).config.knownHighestNumber) ∧
      (new c genesisHash).run
          (ops.filter fun op => ¬ op.IsForeign genesisHash) =
        (new c genesisHash).run ops := by
  have hstart := informed_new hc genesisHash
  have hrun := hstart.run ops
  refine ⟨hrun.known, ?_, hrun.blockNumber_le, ?_, hstart.run_filter ops⟩
  · intro before after hops
    have hbefore := hstart.run before
    have hafter := hbefore.run after
    have hsplit : ((new c genesisHash).run before).run after =
        (new c genesisHash).run ops := by
      rw [hops, PeerSide.run, PeerSide.run, PeerSide.run, List.foldl_append]
    rw [hsplit] at hafter
    exact hbefore.known.number_le hafter.known
  · exact fun id peer hpeer => (hrun.entries id peer hpeer).1

/-- A status from a peer of the group, one from an outsider that is behind,
one of another chain, and a reset. -/
def sampleOperations : List Operation :=
  [.resetConfig (Sample.ledgerConfig 1),
    .peerStatus Sample.peer
      { number := 5, hash := HashType.zero.1, genesisHash := HashType.zero.1 },
    .peerStatus ⟨3, [3]⟩
      { number := 1, hash := HashType.zero.1, genesisHash := HashType.zero.1 },
    .peerStatus Sample.otherPeer
      { number := 9, hash := HashType.zero.1
        genesisHash := List.replicate HashType.size 1 },
    .deletePeer Sample.peer,
    .resetConfig (Sample.ledgerConfig 2)]

theorem run_known_runningMaximum_sample :
    RunningMaximum HashType.zero
      [⟨1, HashType.zero⟩, ⟨5, HashType.zero⟩, ⟨2, HashType.zero⟩]
      ((new { nodeID := Sample.nodeID } HashType.zero).run
        sampleOperations).known :=
  (run_known_runningMaximum (c := { nodeID := Sample.nodeID })
    ⟨rfl, rfl, rfl, rfl, rfl, rfl, rfl⟩ HashType.zero sampleOperations).1

/-! ## The node -/

/-- Every update of the node is an operation. -/
theorem Update.exists_apply {i : BlockSync.Input} {p q : PeerSide}
    (h : Update i p q) : ∃ op, p.apply op = q := by
  cases h with
  | executed n c t => exact ⟨.setExecutedBlock n, rfl⟩
  | reset l c t => exact ⟨.resetConfig l, rfl⟩
  | committedIndex n c t => exact ⟨.notifyCommittedIndex n, rfl⟩
  | connectedNodes nodes c t => exact ⟨.notifyConnectedNodes nodes, rfl⟩
  | peerStatus nodeID syncMsg c t _ hadmits =>
      exact ⟨.peerStatus nodeID syncMsg, if_pos hadmits⟩
  | ownStatus c t => exact ⟨.ownStatus, rfl⟩
  | insertPeer nodeID c t => exact ⟨.insertEmptyPeer nodeID, rfl⟩
  | request nodeID peer number size c t hpeer =>
      refine ⟨.pushRequest nodeID number size, ?_⟩
      rw [apply, hpeer]
  | deletePeer nodeID c t => exact ⟨.deletePeer nodeID, rfl⟩

end PeerSide

namespace BlockSync

variable {P : BlockQueue} {createBlock : BlockFactory}

/-- The handler of a status message is the operation `peerStatus`. -/
theorem peerSide_onPeerStatus (nodeID : PublicPtr)
    (syncMsg : BlockSyncMessage) (s : BlockSync P) :
    (s.onPeerStatus nodeID syncMsg).peerSide =
      s.peerSide.apply (.peerStatus nodeID syncMsg) := by
  have hadmits : s.peerSide.Admits nodeID syncMsg ↔
      ¬(!s.config.existsInGroup nodeID ∧
        syncMsg.number ≤ s.config.blockNumber) := by
    simp [PeerSide.Admits, peerSide, imp_iff_not_or]
  rw [onPeerStatus, PeerSide.apply]
  by_cases hrejected : !s.config.existsInGroup nodeID ∧
      syncMsg.number ≤ s.config.blockNumber
  · rw [if_pos hrejected, if_neg fun h => hadmits.mp h hrejected]
  · rw [if_neg hrejected, if_pos (hadmits.mpr hrejected)]
    rfl

/-- The config and the peer table of a reachable node come from a sequence of
operations that starts with the reset of `init`. -/
theorem reachable_run {s : BlockSync P}
    (hs : (nodeSystem P createBlock).Reachable s) :
    ∃ c genesisHash l ops, IsFreshConfig c ∧
      s.peerSide =
        (PeerSide.new c genesisHash).run (.resetConfig l :: ops) := by
  refine hs.invariant (I := fun s => ∃ c genesisHash l ops,
    IsFreshConfig c ∧ s.peerSide =
      (PeerSide.new c genesisHash).run (.resetConfig l :: ops)) ?_ ?_
  · rintro s ⟨c, genesisHash, l, hc⟩
    exact ⟨c, genesisHash, l, [], hc, peerSide_resetConfig l _⟩
  · rintro s i t - ⟨c, genesisHash, l, ops, hc, hrun⟩ hstep
    have hsteps : ∃ ops, t.peerSide =
        (PeerSide.new c genesisHash).run (.resetConfig l :: ops) := by
      apply (step_updates hstep).preserves (K := fun p => ∃ ops,
        p = (PeerSide.new c genesisHash).run (.resetConfig l :: ops))
      · rintro p q ⟨ops, rfl⟩ hupdate
        obtain ⟨op, rfl⟩ := hupdate.exists_apply
        refine ⟨ops ++ [op], ?_⟩
        rw [PeerSide.run, PeerSide.run, ← List.cons_append,
          List.foldl_append]
        rfl
      · exact ⟨ops, hrun⟩
    obtain ⟨ops, hops⟩ := hsteps
    exact ⟨c, genesisHash, l, ops, hc, hops⟩

theorem reachable_informed {s : BlockSync P}
    (hs : (nodeSystem P createBlock).Reachable s) :
    ∃ genesisHash rs, PeerSide.Informed genesisHash rs s.peerSide := by
  obtain ⟨c, genesisHash, l, ops, hc, hrun⟩ := reachable_run hs
  rw [hrun]
  exact ⟨genesisHash, _, (PeerSide.informed_new hc genesisHash).run _⟩

/-- The node knows at least its own height and those in its peer table. -/
theorem reachable_knownHighestNumber {s : BlockSync P}
    (hs : (nodeSystem P createBlock).Reachable s) :
    s.config.blockNumber ≤ s.config.knownHighestNumber ∧
      s.syncStatus.Forall fun _ peer =>
        peer.number ≤ s.config.knownHighestNumber := by
  obtain ⟨genesisHash, rs, hinformed⟩ := reachable_informed hs
  exact ⟨hinformed.blockNumber_le,
    hinformed.entries.mono fun _ _ hpeer => hpeer.1⟩

end BlockSync

end BcosSync
