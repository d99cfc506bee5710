import BcosSync.Download.Requests

/-!
# What a node sends

Apart from the task that serves requests, a step sends two kinds of packets.
A status goes to connected nodes of the group and is the current one.  A
request goes to a peer of the table, for heights above the chain that this
peer has reported to have.
-/

namespace BcosSync

open MachineInt SyncPeerStatus

/-- A request for heights up to the highest known number does not overflow. -/
structure BlockSyncConfig.RequestsFit (c : BlockSyncConfig) : Prop where
  nonneg : 0 ≤ c.blockNumber
  size_pos : 0 < c.maxRequestBlocks
  known_lt : c.knownHighestNumber + c.maxRequestBlocks < 2 ^ 63

theorem BlockSyncConfig.RequestsFit.setExecutedBlock {c : BlockSyncConfig}
    (h : c.RequestsFit) (n : ℤ) : (c.setExecutedBlock n).RequestsFit := by
  unfold BlockSyncConfig.setExecutedBlock
  split_ifs
  · exact ⟨h.nonneg, h.size_pos, h.known_lt⟩
  · exact h

/-- A request for `size` heights from `number` on can be sent to `p`. -/
structure BlockSyncConfig.MayAsk (c : BlockSyncConfig) (p : PeerStatus)
    (number : ℤ) (size : ℕ) : Prop where
  above : c.blockNumber < number
  size_pos : 0 < size
  size_le : size ≤ c.maxRequestBlocks
  within : number + size ≤ c.knownHighestNumber + 1
  atTop : c.knownHighestNumber ≤ p.number

namespace BlockSync

variable {P : BlockQueue} {createBlock : BlockFactory} {s t : BlockSync P}

/-- The outbox has grown by packets with property `M`. -/
def Grows (M : PublicPtr × Packet → Prop)
    (before after : List (PublicPtr × Packet)) : Prop :=
  ∃ sent, after = sent ++ before ∧ ∀ m ∈ sent, M m

namespace Grows

variable {M M' : PublicPtr × Packet → Prop}
  {before after : List (PublicPtr × Packet)}

theorem refl (M : PublicPtr × Packet → Prop)
    (outbox : List (PublicPtr × Packet)) : Grows M outbox outbox :=
  ⟨[], rfl, fun _ hm => absurd hm List.not_mem_nil⟩

theorem of_eq (h : after = before) : Grows M before after :=
  h ▸ .refl M before

theorem cons (h : Grows M before after) {m : PublicPtr × Packet}
    (hm : M m) : Grows M before (m :: after) := by
  obtain ⟨sent, rfl, hsent⟩ := h
  refine ⟨m :: sent, rfl, fun m' hm' => ?_⟩
  rcases List.mem_cons.mp hm' with rfl | hm'
  · exact hm
  · exact hsent m' hm'

theorem trans {last : List (PublicPtr × Packet)} (h : Grows M before after)
    (h' : Grows M after last) : Grows M before last := by
  obtain ⟨sent, rfl, hsent⟩ := h
  obtain ⟨more, rfl, hmore⟩ := h'
  refine ⟨more ++ sent, (List.append_assoc _ _ _).symm, fun m hm => ?_⟩
  exact (List.mem_append.mp hm).elim (hmore m) (hsent m)

theorem mono (h : Grows M before after) (hM : ∀ m, M m → M' m) :
    Grows M' before after := by
  obtain ⟨sent, heq, hsent⟩ := h
  exact ⟨sent, heq, fun m hm => hM m (hsent m hm)⟩

theorem mem (h : Grows M before after) {m : PublicPtr × Packet}
    (hm : m ∈ after) : m ∈ before ∨ M m := by
  obtain ⟨sent, rfl, hsent⟩ := h
  exact (List.mem_append.mp hm).symm.imp_right (hsent m)

theorem subset (h : Grows M before after) : before ⊆ after := by
  obtain ⟨sent, rfl, -⟩ := h
  exact List.subset_append_right sent before

end Grows

/-- The current status of `t`, sent to a connected node of the group. -/
def Announces (t : BlockSync P) (m : PublicPtr × Packet) : Prop :=
  m.1 ∈ connectedGroupNodes t.config ∧
    m.2 = .status (currentStatus t.config)

def IsRequest (m : PublicPtr × Packet) : Prop :=
  ∃ number size, m.2 = .request number size

/-- A request that `t` may send. -/
def Requests (t : BlockSync P) (m : PublicPtr × Packet) : Prop :=
  ∃ id p number size, t.syncStatus.lookup id = some p ∧
    t.config.MayAsk p number size ∧ m = (p.nodeId, .request number size)

/-! ## Requests -/

section Requests

variable {c : BlockSyncConfig} {from_ to_ : ℤ} {shardNumber : ℕ}

/-- A shard of the range begins before the range ends. -/
theorem lt_of_lt_shardCount {i : ℕ} (hlt : from_ < to_)
    (hfits : to_ - from_ + c.maxRequestBlocks < 2 ^ 63)
    (hpos : 0 < c.maxRequestBlocks) (hi : i < shardCount c from_ to_) :
    from_ + i * c.maxRequestBlocks < to_ := by
  have hexact : (toSize (to_ - from_ + c.maxRequestBlocks - 1) : ℤ) =
      to_ - from_ + c.maxRequestBlocks - 1 := by
    apply toSize_of_range <;> omega
  have hle : (i + 1) * c.maxRequestBlocks ≤
      toSize (to_ - from_ + c.maxRequestBlocks - 1) :=
    (Nat.le_div_iff_mul_le hpos).mp hi
  rw [Nat.succ_mul] at hle
  have hcast : ((i * c.maxRequestBlocks : ℕ) : ℤ) =
      i * c.maxRequestBlocks := Int.natCast_mul _ _
  omega

/-- What one call of the closure asks the peer for. -/
theorem requestShard_mayAsk (hc : c.RequestsFit)
    (hto : to_ ≤ c.knownHighestNumber) {l : RequestLoop}
    (hshard : c.blockNumber + l.shard * c.maxRequestBlocks < to_)
    (p : PeerStatus) :
    (requestShard c c.blockNumber to_ shardNumber p l) = (true, l) ∨
      ∃ number size, c.MayAsk p number size ∧
        (requestShard c c.blockNumber to_ shardNumber p l).1 =
          decide (l.shard + 1 < shardNumber) ∧
        (requestShard c c.blockNumber to_ shardNumber p l).2.shard =
          l.shard + 1 ∧
        (requestShard c c.blockNumber to_ shardNumber p l).2.outbox =
          (p.nodeId, .request number size) :: l.outbox := by
  obtain ⟨hnonneg, hpos, hknown⟩ := hc
  have hproduct := Int.mul_nonneg (Int.natCast_nonneg l.shard)
    (Int.natCast_nonneg c.maxRequestBlocks)
  have hfirst : toInt64 (c.blockNumber + 1 + l.shard * c.maxRequestBlocks) =
      c.blockNumber + 1 + l.shard * c.maxRequestBlocks := by
    apply toInt64_of_range <;> omega
  have hlast : toInt64 (c.blockNumber + 1 + l.shard * c.maxRequestBlocks +
      c.maxRequestBlocks - 1) =
        c.blockNumber + 1 + l.shard * c.maxRequestBlocks +
          c.maxRequestBlocks - 1 := by
    apply toInt64_of_range <;> omega
  unfold requestShard
  dsimp only
  rw [hfirst, hlast]
  split_ifs with hlow hbehind
  · exact .inl rfl
  · exact .inl rfl
  · refine .inr ⟨_, _, ⟨?_, ?_, ?_, ?_, ?_⟩, rfl, rfl, rfl⟩
    · omega
    · unfold toSize
      omega
    · unfold toSize
      omega
    · unfold toSize
      omega
    · omega

end Requests

/-- The passes over the peers send requests that the node may send. -/
theorem requestLoop_sends_from (hc : s.config.RequestsFit) {to_ : ℤ}
    (hto : to_ ≤ s.config.knownHighestNumber)
    (hlt : s.config.blockNumber < to_) (rand : ℕ → ℕ → ℕ) (loops : ℕ)
    {l : RequestLoop} {before : List (PublicPtr × Packet)}
    (h : Grows s.Requests before l.outbox) :
    Grows s.Requests before (requestLoop rand s.config s.syncStatus
      s.config.blockNumber to_ (shardCount s.config s.config.blockNumber to_)
        loops l).outbox := by
  have hbegin : ∀ i, i < shardCount s.config s.config.blockNumber to_ →
      s.config.blockNumber + i * s.config.maxRequestBlocks < to_ := by
    intro i hi
    have hknown := hc.known_lt
    have hnonneg := hc.nonneg
    exact lt_of_lt_shardCount hlt (by omega) hc.size_pos hi
  induction loops generalizing l with
  | zero => exact h
  | succ loops ih =>
      rw [requestLoop]
      split_ifs with hleft
      · have hpass : Grows s.Requests before (foreachPeerRandom (rand loops)
            (requestShard s.config s.config.blockNumber to_
              (shardCount s.config s.config.blockNumber to_)) s.syncStatus
            { l with findPeer := false }).outbox := by
          refine visit_induction
            (I := fun l : RequestLoop => l.shard <
                shardCount s.config s.config.blockNumber to_ ∧
              Grows s.Requests before l.outbox)
            (G := fun l : RequestLoop => Grows s.Requests before l.outbox) ?_ ?_
            (fun l hl => hl.2) _ ⟨hleft, h⟩
          · rintro id p l hp ⟨hshard, hl⟩ hcall
            rcases requestShard_mayAsk hc hto (hbegin _ hshard) p with
              hskip | ⟨number, size, hask, hmore, hnext, hout⟩
            · rw [hskip]
              exact ⟨hshard, hl⟩
            · rw [hnext, hout]
              rw [hmore] at hcall
              exact ⟨of_decide_eq_true hcall,
                hl.cons ⟨id, p, _, _, hp, hask, rfl⟩⟩
          · rintro id p l hp ⟨hshard, hl⟩ hcall
            rcases requestShard_mayAsk hc hto (hbegin _ hshard) p with
              hskip | ⟨number, size, hask, -, -, hout⟩
            · rw [hskip]
              exact hl
            · rw [hout]
              exact hl.cons ⟨id, p, _, _, hp, hask, rfl⟩
        dsimp only
        split_ifs
        · exact ih hpass
        · exact hpass
      · exact h

theorem requestBlocks_sends (hc : s.config.RequestsFit) {to_ : ℤ}
    (hto : to_ ≤ s.config.knownHighestNumber)
    (hlt : s.config.blockNumber < to_) (rand : ℕ → ℕ → ℕ) :
    Grows s.Requests s.outbox
      (requestBlocks rand s.config.blockNumber to_ s).outbox :=
  requestLoop_sends_from hc hto hlt rand s.config.maxShardPerPeer
    (l := ⟨0, false, s.maxRequestNumber, s.outbox⟩) (.refl _ s.outbox)

/-- What is sent depends on the config and the table only. -/
theorem requests_congr (hside : t.peerSide = s.peerSide)
    {m : PublicPtr × Packet} (h : s.Requests m) : t.Requests m := by
  have hconfig : t.config = s.config := congrArg PeerSide.config hside
  have htable : t.syncStatus = s.syncStatus :=
    congrArg PeerSide.syncStatus hside
  unfold Requests at h ⊢
  rw [hconfig, htable]
  exact h

theorem announces_congr (hside : t.peerSide = s.peerSide)
    {m : PublicPtr × Packet} (h : s.Announces m) : t.Announces m := by
  have hconfig : t.config = s.config := congrArg PeerSide.config hside
  rw [Announces, hconfig]
  exact h

theorem tryToRequestBlocks_sends (hc : s.config.RequestsFit)
    (rand : ℕ → ℕ → ℕ) :
    Grows (s.tryToRequestBlocks rand).Requests s.outbox
      (s.tryToRequestBlocks rand).outbox := by
  obtain ⟨hasks, hsilent⟩ := outbox_tryToRequestBlocks rand s
  refine Grows.mono ?_ fun m =>
    requests_congr (peerSide_tryToRequestBlocks rand s)
  by_cases hcalls : s.CallsRequestBlocks
  · rw [hasks hcalls]
    exact requestBlocks_sends hc (requestToNumber_le s) hcalls.blockNumber_lt
      rand
  · exact .of_eq (hsilent hcalls)

/-- A request to a peer that has reached the highest known number. -/
def AsksTop (table : SyncPeerStatus) (c : BlockSyncConfig)
    (m : PublicPtr × Packet) : Prop :=
  ∃ id p number size, table.lookup id = some p ∧
    c.knownHighestNumber ≤ p.number ∧ m = (p.nodeId, .request number size)

theorem requestShard_asksTop {table : SyncPeerStatus} {id : Bytes}
    {p : PeerStatus} (hp : table.lookup id = some p) (c : BlockSyncConfig)
    (from_ to_ : ℤ) (shardNumber : ℕ) (l : RequestLoop) :
    Grows (AsksTop table c) l.outbox
      (requestShard c from_ to_ shardNumber p l).2.outbox := by
  unfold requestShard
  dsimp only
  split_ifs with hlow
  · exact .refl _ l.outbox
  · exact .refl _ l.outbox
  · exact Grows.cons (.refl _ l.outbox)
      ⟨id, p, _, _, hp, not_lt.mp hlow, rfl⟩

/-- The passes over the peers ask peers at the top only, whatever the numbers
are. -/
theorem requestLoop_asksTop (rand : ℕ → ℕ → ℕ) (c : BlockSyncConfig)
    (table : SyncPeerStatus) (from_ to_ : ℤ) (shardNumber loops : ℕ)
    (l : RequestLoop) :
    Grows (AsksTop table c) l.outbox
      (requestLoop rand c table from_ to_ shardNumber loops l).outbox := by
  induction loops generalizing l with
  | zero => exact .refl _ l.outbox
  | succ loops ih =>
      have hpass : Grows (AsksTop table c) l.outbox
          (foreachPeerRandom (rand loops)
            (requestShard c from_ to_ shardNumber) table
            { l with findPeer := false }).outbox :=
        visit_induction
          (I := fun x : RequestLoop =>
            Grows (AsksTop table c) l.outbox x.outbox)
          (G := fun x : RequestLoop =>
            Grows (AsksTop table c) l.outbox x.outbox)
          (fun id p x hp hx _ => hx.trans (requestShard_asksTop hp c _ _ _ x))
          (fun id p x hp hx _ => hx.trans (requestShard_asksTop hp c _ _ _ x))
          (fun x hx => hx) _ (.refl _ l.outbox)
      rw [requestLoop]
      dsimp only
      split_ifs
      · exact hpass.trans (ih _)
      · exact hpass
      · exact .refl _ l.outbox

theorem tryToRequestBlocks_asksTop (rand : ℕ → ℕ → ℕ) (s : BlockSync P) :
    Grows (AsksTop s.syncStatus s.config) s.outbox
      (s.tryToRequestBlocks rand).outbox := by
  obtain ⟨hasks, hsilent⟩ := outbox_tryToRequestBlocks rand s
  by_cases hcalls : s.CallsRequestBlocks
  · rw [hasks hcalls]
    exact requestLoop_asksTop rand s.config s.syncStatus _ _ _ _
      ⟨0, false, s.maxRequestNumber, s.outbox⟩
  · exact .of_eq (hsilent hcalls)

theorem tryToRequestBlocks_onlyRequests (rand : ℕ → ℕ → ℕ)
    (s : BlockSync P) :
    Grows IsRequest s.outbox (s.tryToRequestBlocks rand).outbox := by
  refine (tryToRequestBlocks_asksTop rand s).mono ?_
  rintro _ ⟨_, _, number, size, -, -, rfl⟩
  exact ⟨number, size, rfl⟩

/-! ## Statuses -/

theorem send_foldl (msg : Packet) (nodes : List PublicPtr)
    (s : BlockSync P) :
    nodes.foldl (fun s node => s.send node msg) s =
      { s with
        outbox :=
          (nodes.map fun node => (node, msg)).reverse ++ s.outbox } := by
  induction nodes generalizing s with
  | nil => rfl
  | cons node nodes ih =>
      rw [List.foldl_cons, ih, List.map_cons, List.reverse_cons,
        List.append_assoc]
      rfl

theorem broadcast_sends (s : BlockSync P) :
    Grows s.Announces s.outbox s.broadcastSyncStatus.outbox := by
  unfold broadcastSyncStatus
  rw [send_foldl]
  refine ⟨_, rfl, fun m hm => ?_⟩
  obtain ⟨node, hnode, rfl⟩ := List.mem_map.mp (List.mem_reverse.mp hm)
  exact ⟨hnode, rfl⟩

/-- A new block is announced with the config that it has set. -/
theorem onNewBlock_sends (l : LedgerConfig) (s : BlockSync P) :
    Grows (s.onNewBlock l).Announces s.outbox (s.onNewBlock l).outbox := by
  have hout : (s.resetConfig l).outbox = s.outbox := by
    unfold resetConfig
    split_ifs <;> rfl
  have hsends := broadcast_sends (s.resetConfig l)
  rw [hout] at hsends
  obtain ⟨out, heq⟩ := broadcastSyncStatus_eq (s.resetConfig l)
  have hside : (s.onNewBlock l).peerSide = (s.resetConfig l).peerSide := by
    rw [onNewBlock, heq]
    rfl
  exact hsends.mono fun m => announces_congr hside

/-- Neither the peer table nor the outbox changes. -/
structure Silent (s t : BlockSync P) : Prop where
  syncStatus : t.syncStatus = s.syncStatus
  outbox : t.outbox = s.outbox

theorem Silent.refl (s : BlockSync P) : Silent s s := ⟨rfl, rfl⟩

theorem Silent.trans {u : BlockSync P} (h : Silent s t) (h' : Silent t u) :
    Silent s u :=
  ⟨h'.syncStatus.trans h.syncStatus, h'.outbox.trans h.outbox⟩

theorem silent_tryToCommit (throws : Option ThrowSite) (s : BlockSync P) :
    Silent s (tryToCommitBlockToLedger throws s) := by
  obtain ⟨q, pending, trace, heq⟩ := tryToCommit_eq throws s
  rw [heq]
  exact ⟨rfl, rfl⟩

/-- A commit trigger after a new block adds no packet. -/
theorem newBlock_sends (throws : Option ThrowSite) (l : LedgerConfig)
    (s : BlockSync P) :
    Grows (tryToCommitBlockToLedger throws (s.onNewBlock l)).Announces
      s.outbox (tryToCommitBlockToLedger throws (s.onNewBlock l)).outbox := by
  rw [(silent_tryToCommit throws _).outbox]
  exact (onNewBlock_sends l s).mono fun m =>
    announces_congr (peerSide_tryToCommit throws _)

/-- The loop of `maintainPeersConnection` over the nodes to which the current
status is sent. -/
theorem ownStatus_foldl (nodes : List PublicPtr) (s : BlockSync P) :
    ∃ table config,
      nodes.foldl
        (fun s node =>
          let updated := SyncPeerStatus.updatePeerStatus s.config.nodeID
            (currentStatus s.config) s.syncStatus s.config
          { s with syncStatus := updated.1, config := updated.2 }.send node
            (.status (currentStatus s.config))) s =
        { s with
          syncStatus := table
          config := config
          outbox := (nodes.map fun node =>
            (node, .status (currentStatus s.config))).reverse ++ s.outbox } ∧
      currentStatus config = currentStatus s.config ∧
      connectedGroupNodes config = connectedGroupNodes s.config := by
  induction nodes generalizing s with
  | nil => exact ⟨_, _, rfl, rfl, rfl⟩
  | cons node nodes ih =>
      obtain ⟨number, hash, hconfig⟩ := updatePeerStatus_config
        s.config.nodeID (currentStatus s.config) s.syncStatus s.config
      rw [List.foldl_cons]
      obtain ⟨table, config, heq, hstatus, hnodes⟩ := ih _
      refine ⟨table, config, heq.trans ?_, ?_, ?_⟩
      · dsimp only [send]
        rw [List.map_cons, List.reverse_cons, List.append_assoc, hconfig]
        rfl
      · rw [hstatus]
        dsimp only [send]
        rw [hconfig]
        rfl
      · rw [hnodes]
        dsimp only [send]
        rw [hconfig]
        rfl

theorem maintainPeersConnection_sends (s : BlockSync P) :
    Grows s.maintainPeersConnection.Announces s.outbox
      s.maintainPeersConnection.outbox := by
  unfold maintainPeersConnection
  split
  · exact .refl _ s.outbox
  · obtain ⟨table, config, heq, hstatus, hnodes⟩ :=
      ownStatus_foldl (connectedGroupNodes s.config)
        { s with
          syncStatus := ((s.syncStatus.entries.map fun e => e.2).filter
            (uncorrelated s.config)).foldl
              (fun t p => SyncPeerStatus.deletePeer p.nodeId t) s.syncStatus }
    dsimp only at heq hstatus hnodes ⊢
    rw [heq]
    refine ⟨_, rfl, fun m hm => ?_⟩
    obtain ⟨node, hnode, rfl⟩ := List.mem_map.mp (List.mem_reverse.mp hm)
    rw [← hnodes] at hnode
    rw [← hstatus]
    exact ⟨hnode, rfl⟩

/-! ## Steps -/

theorem silent_commitBlockState (throws : Option ThrowSite) (b : Block)
    (s : BlockSync P) : Silent s (commitBlockState throws b s) := by
  obtain ⟨pending, trace, heq⟩ := commitBlockState_eq throws b s
  rw [heq]
  exact ⟨rfl, rfl⟩

theorem silent_commitBlock (throws : Option ThrowSite) (b : Block)
    (s : BlockSync P) : Silent s (commitBlock throws b s) := by
  obtain ⟨pending, trace, heq⟩ := commitBlock_eq throws b s
  rw [heq]
  exact ⟨rfl, rfl⟩

theorem silent_onExecuteBlock (throws : Option ThrowSite) (b : Block)
    (a : Except Error BlockHeader) (s : BlockSync P) :
    Silent s (onExecuteBlock throws b a s) := by
  unfold onExecuteBlock
  cases a with
  | error e => exact ⟨rfl, rfl⟩
  | ok header =>
      dsimp only
      split_ifs
      · obtain ⟨htable, hout⟩ := silent_tryToCommit throws
          (((s.log (.executeBlockAnswer b (.ok header))).setExecutedBlock
            b.number).setCommitQueue (P.push s.downloadingQueue.commitQueue b))
        exact ⟨htable, hout⟩
      · exact ⟨rfl, rfl⟩

theorem silent_onCheckBlock (throws : Option ThrowSite) (b : Block)
    (a : Except Error Bool) (s : BlockSync P) :
    Silent s (onCheckBlock throws b a s) := by
  match a with
  | .error _ => exact ⟨rfl, rfl⟩
  | .ok false => exact ⟨rfl, rfl⟩
  | .ok true =>
      exact Silent.trans (t := s.log _) ⟨rfl, rfl⟩
        (silent_commitBlock throws b _)

theorem silent_onStoreTransactions (throws : Option ThrowSite) (b : Block)
    (e : Option Error) (s : BlockSync P) :
    Silent s (onStoreTransactions throws b e s) := by
  cases e with
  | none =>
      exact Silent.trans (t := s.log _) ⟨rfl, rfl⟩
        (silent_commitBlockState throws b _)
  | some e => exact ⟨rfl, rfl⟩

theorem onCommitBlock_sends (throws : Option ThrowSite) (b : Block)
    (a : Except Error LedgerConfig) (s : BlockSync P) :
    Grows (onCommitBlock throws b a s).Announces s.outbox
      (onCommitBlock throws b a s).outbox := by
  cases a with
  | error e => exact .of_eq rfl
  | ok l =>
      dsimp only [onCommitBlock]
      unfold finalizeBlock
      dsimp only
      split_ifs
      · exact .of_eq rfl
      · exact newBlock_sends throws _ _

theorem silent_requestState (createBlock : BlockFactory)
    (s : BlockSync P) : Silent s (s.requestState createBlock) := by
  obtain ⟨buffered, hbuffered⟩ := maintainDownloadingBuffer_eq createBlock s
  obtain ⟨q, pending, trace, hprepared⟩ := prepareExecution_eq
    (s.maintainDownloadingBuffer createBlock)
  have hsilent : Silent s (s.maintainDownloadingBuffer
      createBlock).prepareExecution := by
    rw [hprepared, hbuffered]
    exact ⟨rfl, rfl⟩
  unfold requestState maintainDownloadingQueue
  split_ifs
  · rw [hbuffered]
    exact ⟨rfl, rfl⟩
  · dsimp only
    split
    · exact hsilent
    · unfold applyBlock
      split_ifs <;> exact hsilent.trans ⟨rfl, rfl⟩

/-- Until it requests blocks, a download task sets the executed height at
most. -/
theorem config_requestState (createBlock : BlockFactory) (s : BlockSync P) :
    (s.requestState createBlock).config = s.config ∨
      ∃ n, (s.requestState createBlock).config =
        s.config.setExecutedBlock n := by
  have hconfig : (s.maintainDownloadingBuffer
      createBlock).prepareExecution.config = s.config := by
    rw [config_prepareExecution, config_maintainDownloadingBuffer]
  unfold requestState maintainDownloadingQueue
  split_ifs
  · exact .inl (config_maintainDownloadingBuffer createBlock s)
  · dsimp only
    split
    · exact .inl hconfig
    · unfold applyBlock
      split_ifs
      · exact .inr ⟨_, congrArg
          (fun c : BlockSyncConfig => c.setExecutedBlock _) hconfig⟩
      · exact .inl hconfig

theorem requestsFit_requestState (h : s.config.RequestsFit) :
    (s.requestState createBlock).config.RequestsFit := by
  rcases config_requestState createBlock s with hsame | ⟨n, hset⟩
  · exact hsame.symm ▸ h
  · exact hset.symm ▸ h.setExecutedBlock n

theorem outbox_syncMessage (nodeID : PublicPtr) (syncMsg : BlockSyncMessage)
    (s : BlockSync P) :
    (s.asyncNotifyBlockSyncMessage nodeID syncMsg).outbox = s.outbox := by
  obtain ⟨table, config, buffer, heq, -⟩ := syncMessage_eq nodeID syncMsg s
  rw [heq]

/-- What one step sends: announcements, and the requests of a download
task. -/
theorem step_grows {i : Input} {M : PublicPtr × Packet → Prop}
    (hstep : s.step createBlock i = some t)
    (hrequests : ∀ rand, i = .downloadTask rand →
      Grows M (s.requestState createBlock).outbox
        ((s.requestState createBlock).tryToRequestBlocks rand).outbox) :
    Grows (fun m => t.Announces m ∨ M m) s.outbox t.outbox := by
  cases i with
  | downloadTask rand =>
      obtain rfl := Option.some.inj hstep
      rw [← (silent_requestState createBlock s).outbox]
      exact (hrequests rand rfl).mono fun m => .inr
  | maintainPeersConnection =>
      obtain rfl := Option.some.inj hstep
      exact (maintainPeersConnection_sends s).mono fun m => .inl
  | downloadTimeout =>
      simp only [step] at hstep
      split_ifs at hstep
      obtain rfl := Option.some.inj hstep
      exact .of_eq rfl
  | syncMessage nodeID syncMsg =>
      obtain rfl := Option.some.inj hstep
      exact .of_eq (outbox_syncMessage nodeID syncMsg s)
  | notifyNewBlock l =>
      obtain rfl := Option.some.inj hstep
      unfold asyncNotifyNewBlock
      split_ifs
      · exact (newBlock_sends none l s).mono fun m => .inl
      · exact .refl _ s.outbox
  | notifyCommittedIndex number =>
      obtain rfl := Option.some.inj hstep
      exact .of_eq rfl
  | notifyConnectedNodes nodes =>
      obtain rfl := Option.some.inj hstep
      exact .of_eq rfl
  | executeBlockAnswer b a throws =>
      obtain ⟨-, rfl⟩ := answer_eq_some.mp hstep
      exact .of_eq (silent_onExecuteBlock throws b a (s.resolve _)).outbox
  | asyncCheckBlockAnswer b a throws =>
      obtain ⟨-, rfl⟩ := answer_eq_some.mp hstep
      exact .of_eq (silent_onCheckBlock throws b a (s.resolve _)).outbox
  | asyncStoreTransactionsAnswer b e throws =>
      obtain ⟨-, rfl⟩ := answer_eq_some.mp hstep
      exact .of_eq
        (silent_onStoreTransactions throws b e (s.resolve _)).outbox
  | commitBlockAnswer b a throws =>
      obtain ⟨-, rfl⟩ := answer_eq_some.mp hstep
      exact (onCommitBlock_sends throws b a (s.resolve _)).mono fun m => .inl

/-- Where requests do not overflow, a step sends announcements and requests
that the node may send. -/
theorem step_sends {i : Input} (hstep : s.step createBlock i = some t)
    (hfits : s.config.RequestsFit) :
    Grows (fun m => t.Announces m ∨ t.Requests m) s.outbox t.outbox := by
  refine step_grows hstep ?_
  rintro rand rfl
  obtain rfl := Option.some.inj hstep
  exact tryToRequestBlocks_sends (requestsFit_requestState hfits) rand

end BlockSync

end BcosSync
