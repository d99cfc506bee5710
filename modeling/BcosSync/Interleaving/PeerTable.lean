import BcosSync.Peers.Table
import Mathlib.Logic.Relation

/-!
# The peer table between handlers

The handlers of status and block-request packets of one peer, access by
access.  The table holds pointers: `insertEmptyPeer` keeps an entry that is
there and returns the object it has made.  A handler that is left alone does
what the node does in one step.
-/

namespace BcosSync

open TransitionSystem MachineInt

/-- The next access of the handler of one packet. -/
inductive PeerCall
  | idle
  | updatePeerStatus (syncMsg : BlockSyncMessage)
  /-- `peerStatus(_nodeID)` of `onPeerBlocksRequest`. -/
  | peerStatus (syncMsg : BlockSyncMessage)
  | insertEmptyPeer (syncMsg : BlockSyncMessage)
  /-- The request is pushed to the queue of the object at `addr`. -/
  | push (addr : ℕ) (syncMsg : BlockSyncMessage)
deriving DecidableEq

/-- The config, the table and the objects on the heap, with the handlers that
are under way.  `pushed` collects what they have pushed; no access reads it. -/
structure SharedPeers where
  config : BlockSyncConfig
  peersStatus : AList fun _ : Bytes => ℕ
  objects : List PeerStatus
  calls : ℕ → PeerCall
  pushed : Multiset DownloadRequest

namespace SharedPeers

def setCall (call : ℕ) (c : PeerCall) (s : SharedPeers) : SharedPeers :=
  { s with calls := Function.update s.calls call c }

/-- `updatePeerStatus`, under the lock of the table. -/
def updatePeerStatus (peer : PublicPtr) (status : BlockSyncStatus)
    (s : SharedPeers) : SharedPeers :=
  if status.genesisHash ≠ s.config.genesisHash then s
  else
    match s.peersStatus.lookup peer.data with
    | some addr =>
        match s.objects[addr]? with
        | some entry =>
            let (updated, entry) := entry.update status
            { s with
              objects := s.objects.set addr entry
              config :=
                if updated then
                  SyncPeerStatus.updateKnownMaxBlockInfo status s.config
                else s.config }
        | none => s
    | none =>
        { s with
          objects := s.objects ++ [PeerStatus.new peer status]
          peersStatus := s.peersStatus.insert peer.data s.objects.length
          config := SyncPeerStatus.updateKnownMaxBlockInfo status s.config }

/-- `insertEmptyPeer`: the table afterwards.  The object it returns is the
last one. -/
def insertEmptyPeer (peer : PublicPtr) (s : SharedPeers) : SharedPeers :=
  { s with
    objects := s.objects ++ [PeerStatus.newEmpty peer]
    peersStatus :=
      match s.peersStatus.lookup peer.data with
      | some _ => s.peersStatus
      | none => s.peersStatus.insert peer.data s.objects.length }

/-- The request of a packet. -/
def request (syncMsg : BlockSyncMessage) : DownloadRequest :=
  DownloadRequest.make syncMsg.number (toSize syncMsg.size)

def push (addr : ℕ) (syncMsg : BlockSyncMessage) (s : SharedPeers) :
    SharedPeers :=
  { s with
    objects := s.objects.modify addr fun peer =>
      { peer with
        downloadRequests := peer.downloadRequests.push
          s.config.maxDownloadRequestQueueSize syncMsg.number
          (toSize syncMsg.size) }
    pushed := request syncMsg ::ₘ s.pushed }

inductive Input
  | receive (call : ℕ) (syncMsg : BlockSyncMessage)
  | advance (call : ℕ)
deriving DecidableEq

/-- What a packet of `peer` starts.  Other packets do not use the table. -/
def start (peer : PublicPtr) (syncMsg : BlockSyncMessage)
    (s : SharedPeers) : PeerCall :=
  if syncMsg.packetType = BlockSyncPacketType.blockStatusPacket then
    if !s.config.existsInGroup peer ∧ syncMsg.number ≤ s.config.blockNumber then
      .idle
    else .updatePeerStatus syncMsg
  else if syncMsg.packetType = BlockSyncPacketType.blockRequestPacket then
    .peerStatus syncMsg
  else .idle

/-- The next access of a handler. -/
def access (peer : PublicPtr) (s : SharedPeers) :
    PeerCall → Option (SharedPeers × PeerCall)
  | .idle => none
  | .updatePeerStatus syncMsg =>
      some (s.updatePeerStatus peer (BlockSyncStatus.ofMessage syncMsg), .idle)
  | .peerStatus syncMsg =>
      match s.peersStatus.lookup peer.data with
      | some addr => some (s, .push addr syncMsg)
      | none =>
          some (s, if s.config.existsInGroup peer then .insertEmptyPeer syncMsg
            else .idle)
  | .insertEmptyPeer syncMsg =>
      some (s.insertEmptyPeer peer, .push s.objects.length syncMsg)
  | .push addr syncMsg => some (s.push addr syncMsg, .idle)

def step (peer : PublicPtr) (s : SharedPeers) : Input → Option SharedPeers
  | .receive call syncMsg =>
      match s.calls call with
      | .idle => some (s.setCall call (s.start peer syncMsg))
      | _ => none
  | .advance call =>
      (s.access peer (s.calls call)).map fun (t, next) => t.setCall call next

/-- All handlers have finished. -/
def Quiet (s : SharedPeers) : Prop := ∀ call, s.calls call = .idle

/-- The pointer the table holds for `peer`. -/
def stored (peer : PublicPtr) (s : SharedPeers) : Option ℕ :=
  s.peersStatus.lookup peer.data

/-- The request queue of the object at `addr`. -/
def queueAt (addr : ℕ) (s : SharedPeers) : Option DownloadRequestQueue :=
  (s.objects[addr]?).map fun p => p.downloadRequests

/-- The requests in the queue of the entry the table holds for `peer`. -/
def requests (peer : PublicPtr) (s : SharedPeers) : Multiset DownloadRequest :=
  match (s.stored peer).bind fun addr => s.queueAt addr with
  | some queue => queue.requests
  | none => 0

/-- No handler is under way, the peer is in the group, and the table points to
objects on the heap.  `pushed` starts with what the peer has queued. -/
structure IsInit (peer : PublicPtr) (s : SharedPeers) : Prop where
  quiet : s.Quiet
  group : s.config.existsInGroup peer = true
  valid : ∀ id addr, s.peersStatus.lookup id = some addr →
    addr < s.objects.length
  pushed : s.pushed = s.requests peer

end SharedPeers

/-- The interleavings of the handlers of the packets of `peer`. -/
def sharedPeers (peer : PublicPtr) :
    TransitionSystem SharedPeers SharedPeers.Input where
  IsInit := SharedPeers.IsInit peer
  step := SharedPeers.step peer

namespace SharedPeers

variable {peer : PublicPtr} {s t u : SharedPeers} {addr call : ℕ}
  {syncMsg : BlockSyncMessage}

/-! ## The accesses -/

theorem calls_setCall (s : SharedPeers) (call : ℕ) (c : PeerCall) :
    (s.setCall call c).calls call = c :=
  Function.update_self _ _ _

theorem calls_setCall_ne {call' : ℕ} (h : call' ≠ call) (c : PeerCall) :
    (s.setCall call c).calls call' = s.calls call' :=
  Function.update_of_ne h _ _

theorem requests_of_none (h : s.stored peer = none) :
    s.requests peer = 0 := by
  rw [requests, h]
  rfl

theorem requests_of_queueAt {queue : DownloadRequestQueue}
    (h : s.stored peer = some addr) (hqueue : s.queueAt addr = some queue) :
    s.requests peer = queue.requests := by
  rw [requests, h, Option.bind_some, hqueue]

/-- The pointer and the queue behind it decide what is queued. -/
theorem requests_congr (hstored : t.stored peer = s.stored peer)
    (hqueue : ∀ addr, s.stored peer = some addr →
      t.queueAt addr = s.queueAt addr) :
    t.requests peer = s.requests peer := by
  unfold requests
  rw [hstored]
  cases h : s.stored peer with
  | none => rfl
  | some addr => rw [Option.bind_some, Option.bind_some, hqueue addr h]

theorem downloadRequests_update (status : BlockSyncStatus) (p : PeerStatus) :
    (p.update status).2.downloadRequests = p.downloadRequests := by
  unfold PeerStatus.update
  split_ifs <;> rfl

/-- What a status does, apart from the known pair: nothing, a change of the
entry that is there, or a new entry with an empty queue. -/
theorem updatePeerStatus_cases (peer : PublicPtr) (status : BlockSyncStatus)
    (s : SharedPeers) :
    (s.updatePeerStatus peer status).calls = s.calls ∧
      (s.updatePeerStatus peer status).pushed = s.pushed ∧
      (s.updatePeerStatus peer status).config.existsInGroup =
        s.config.existsInGroup ∧
      (s.updatePeerStatus peer status).config.genesisHash =
        s.config.genesisHash ∧
      (s.updatePeerStatus peer status = s ∨
        (∃ addr entry, s.objects[addr]? = some entry ∧
          (s.updatePeerStatus peer status).peersStatus = s.peersStatus ∧
          (s.updatePeerStatus peer status).objects =
            s.objects.set addr (entry.update status).2) ∨
        s.stored peer = none ∧
          (s.updatePeerStatus peer status).peersStatus =
            s.peersStatus.insert peer.data s.objects.length ∧
          (s.updatePeerStatus peer status).objects =
            s.objects ++ [PeerStatus.new peer status]) := by
  have hknown : (SyncPeerStatus.updateKnownMaxBlockInfo status
        s.config).existsInGroup = s.config.existsInGroup ∧
      (SyncPeerStatus.updateKnownMaxBlockInfo status s.config).genesisHash =
        s.config.genesisHash := by
    unfold SyncPeerStatus.updateKnownMaxBlockInfo
    split_ifs <;> exact ⟨rfl, rfl⟩
  unfold updatePeerStatus
  split_ifs
  · exact ⟨rfl, rfl, rfl, rfl, .inl rfl⟩
  · split
    · next addr hstored =>
        split
        · next entry hentry =>
            dsimp only
            split
            · exact ⟨rfl, rfl, hknown.1, hknown.2,
                .inr (.inl ⟨addr, entry, hentry, rfl, rfl⟩)⟩
            · exact ⟨rfl, rfl, rfl, rfl,
                .inr (.inl ⟨addr, entry, hentry, rfl, rfl⟩)⟩
        · exact ⟨rfl, rfl, rfl, rfl, .inl rfl⟩
    · next hstored =>
        exact ⟨rfl, rfl, hknown.1, hknown.2, .inr (.inr ⟨hstored, rfl, rfl⟩)⟩

/-- The stored pointer is one to an object. -/
def Valid (peer : PublicPtr) (s : SharedPeers) : Prop :=
  ∀ addr, s.stored peer = some addr → addr < s.objects.length

/-- What every access keeps. -/
structure Keeps (peer : PublicPtr) (s u : SharedPeers) : Prop where
  calls : u.calls = s.calls
  group : u.config.existsInGroup peer = s.config.existsInGroup peer
  genesisHash : u.config.genesisHash = s.config.genesisHash
  length_le : s.objects.length ≤ u.objects.length
  stored : ∀ addr, s.stored peer = some addr → u.stored peer = some addr
  valid : u.Valid peer

theorem Keeps.refl (h : s.Valid peer) : Keeps peer s s :=
  ⟨rfl, rfl, rfl, le_rfl, fun _ h => h, h⟩

theorem stored_insert (s : SharedPeers) :
    (s.peersStatus.insert peer.data addr).lookup peer.data = some addr :=
  AList.lookup_insert _

/-- A new object has an address of its own. -/
theorem getElem?_append_new {objects : List PeerStatus} {p : PeerStatus}
    (h : addr < objects.length) : (objects ++ [p])[addr]? = objects[addr]? :=
  List.getElem?_append_left h

/-- A new entry with an empty queue changes none of the requests. -/
theorem keeps_newEntry {p : PeerStatus} (hnone : s.stored peer = none)
    (hcalls : u.calls = s.calls)
    (hgroup : u.config.existsInGroup peer = s.config.existsInGroup peer)
    (hgenesis : u.config.genesisHash = s.config.genesisHash)
    (htable : u.peersStatus =
      s.peersStatus.insert peer.data s.objects.length)
    (hobjects : u.objects = s.objects ++ [p])
    (hp : p.downloadRequests = DownloadRequestQueue.new) :
    Keeps peer s u ∧ u.requests peer = s.requests peer ∧
      u.stored peer = some s.objects.length := by
  have hstored : u.stored peer = some s.objects.length := by
    unfold stored
    rw [htable]
    exact stored_insert s
  have hlength : u.objects.length = s.objects.length + 1 := by
    rw [hobjects, List.length_append, List.length_singleton]
  refine ⟨⟨hcalls, hgroup, hgenesis, by omega, ?_, ?_⟩, ?_, hstored⟩
  · intro addr haddr
    cases hnone.symm.trans haddr
  · intro addr haddr
    obtain rfl := Option.some.inj (hstored.symm.trans haddr)
    omega
  · have hqueue : u.queueAt s.objects.length =
        some DownloadRequestQueue.new := by
      rw [queueAt, hobjects, List.getElem?_concat_length, Option.map_some, hp]
    rw [requests_of_queueAt hstored hqueue, requests_of_none hnone]
    rfl

theorem keeps_updatePeerStatus (h : s.Valid peer)
    (status : BlockSyncStatus) :
    Keeps peer s (s.updatePeerStatus peer status) ∧
      (s.updatePeerStatus peer status).requests peer = s.requests peer := by
  obtain ⟨hcalls, -, hgroup, hgenesis, hsame |
    ⟨addr, entry, hentry, htable, hobjects⟩ | ⟨hnone, htable, hobjects⟩⟩ :=
      updatePeerStatus_cases peer status s
  · rw [hsame]
    exact ⟨.refl h, rfl⟩
  · have hstored : (s.updatePeerStatus peer status).stored peer =
        s.stored peer := by
      unfold stored
      rw [htable]
    have hlength : (s.updatePeerStatus peer status).objects.length =
        s.objects.length := by
      rw [hobjects, List.length_set]
    refine ⟨⟨hcalls, congrFun hgroup peer, hgenesis, hlength.ge, ?_, ?_⟩, ?_⟩
    · exact fun addr h => hstored.trans h
    · intro addr haddr
      rw [hlength]
      exact h addr (hstored.symm.trans haddr)
    · refine requests_congr hstored fun addr' _ => ?_
      unfold queueAt
      rw [hobjects, List.getElem?_set]
      split_ifs with haddr hlt
      · rw [← haddr, hentry, Option.map_some, Option.map_some,
          downloadRequests_update]
      · rw [← haddr, List.getElem?_eq_none (not_lt.mp hlt)]
      · rfl
  · obtain ⟨hkeeps, hrequests, -⟩ := keeps_newEntry hnone hcalls
      (congrFun hgroup peer) hgenesis htable hobjects rfl
    exact ⟨hkeeps, hrequests⟩

theorem keeps_insertEmptyPeer (h : s.Valid peer) :
    Keeps peer s (s.insertEmptyPeer peer) ∧
      (s.insertEmptyPeer peer).requests peer = s.requests peer ∧
      (s.insertEmptyPeer peer).stored peer ≠ none ∧
      ((s.insertEmptyPeer peer).stored peer = some s.objects.length ↔
        s.stored peer = none) := by
  cases hstored : s.stored peer with
  | some addr =>
      -- the entry that is there stays
      have hlookup : s.peersStatus.lookup peer.data = some addr := hstored
      have htable : (s.insertEmptyPeer peer).stored peer = some addr := by
        unfold insertEmptyPeer stored
        rw [hlookup]
        exact hstored
      have hlength : (s.insertEmptyPeer peer).objects.length =
          s.objects.length + 1 := by
        unfold insertEmptyPeer
        rw [List.length_append, List.length_singleton]
      have hlt := h addr hstored
      refine ⟨⟨rfl, rfl, rfl, by omega, ?_, ?_⟩, ?_, ?_, ?_⟩
      · intro addr' haddr'
        obtain rfl := Option.some.inj (hstored.symm.trans haddr')
        exact htable
      · intro addr' haddr'
        obtain rfl := Option.some.inj (htable.symm.trans haddr')
        omega
      · refine requests_congr (htable.trans hstored.symm) fun addr' haddr' => ?_
        unfold queueAt insertEmptyPeer
        rw [getElem?_append_new (h addr' haddr')]
      · rw [htable]
        exact Option.some_ne_none addr
      · rw [htable]
        simp [hlt.ne]
  | none =>
      have hlookup : s.peersStatus.lookup peer.data = none := hstored
      have htable : (s.insertEmptyPeer peer).peersStatus =
          s.peersStatus.insert peer.data s.objects.length := by
        unfold insertEmptyPeer
        rw [hlookup]
      obtain ⟨hkeeps, hrequests, hnew⟩ := keeps_newEntry
        (u := s.insertEmptyPeer peer) hstored rfl rfl rfl htable rfl rfl
      refine ⟨hkeeps, hrequests, ?_, iff_of_true hnew rfl⟩
      rw [hnew]
      exact Option.some_ne_none _

/-- The queue at `addr` has room. -/
def Room (addr : ℕ) (s : SharedPeers) : Prop :=
  ∀ queue ∈ s.queueAt addr,
    queue.size < s.config.maxDownloadRequestQueueSize

theorem queueAt_push (addr addr' : ℕ) (syncMsg : BlockSyncMessage)
    (s : SharedPeers) :
    (s.push addr syncMsg).queueAt addr' =
      if addr = addr' then
        (s.queueAt addr').map fun queue =>
          queue.push s.config.maxDownloadRequestQueueSize syncMsg.number
            (toSize syncMsg.size)
      else s.queueAt addr' := by
  unfold queueAt push
  rw [List.getElem?_modify]
  split_ifs
  · cases s.objects[addr']? <;> rfl
  · cases s.objects[addr']? <;> rfl

/-- A push to another object than the stored one is not seen in the queue. -/
theorem requests_push_of_ne (syncMsg : BlockSyncMessage)
    (h : s.stored peer ≠ some addr) :
    (s.push addr syncMsg).requests peer = s.requests peer := by
  refine requests_congr rfl fun addr' haddr' => ?_
  rw [queueAt_push, if_neg]
  rintro rfl
  exact h haddr'

/-- A push to the stored object is. -/
theorem requests_push_of_eq {queue : DownloadRequestQueue}
    (h : s.stored peer = some addr) (hqueue : s.queueAt addr = some queue)
    (syncMsg : BlockSyncMessage) :
    (s.push addr syncMsg).requests peer =
      (queue.push s.config.maxDownloadRequestQueueSize syncMsg.number
        (toSize syncMsg.size)).requests := by
  have hpushed := queueAt_push addr addr syncMsg s
  rw [if_pos rfl, hqueue, Option.map_some] at hpushed
  exact requests_of_queueAt (s := s.push addr syncMsg) h hpushed

/-- There is a queue behind the stored pointer. -/
theorem Valid.queueAt (hvalid : s.Valid peer)
    (h : s.stored peer = some addr) :
    ∃ queue, s.queueAt addr = some queue ∧
      s.requests peer = queue.requests := by
  have hlt := hvalid addr h
  refine ⟨s.objects[addr].downloadRequests, ?_, ?_⟩
  · rw [SharedPeers.queueAt, List.getElem?_eq_getElem hlt, Option.map_some]
  · refine requests_of_queueAt h ?_
    rw [SharedPeers.queueAt, List.getElem?_eq_getElem hlt, Option.map_some]

theorem requests_push (hvalid : s.Valid peer)
    (h : s.stored peer = some addr) (hroom : s.Room addr)
    (syncMsg : BlockSyncMessage) :
    (s.push addr syncMsg).requests peer =
      request syncMsg ::ₘ s.requests peer := by
  obtain ⟨queue, hqueue, hrequests⟩ := hvalid.queueAt h
  rw [requests_push_of_eq h hqueue, hrequests]
  exact DownloadRequestQueue.requests_push (hroom queue hqueue)

theorem requests_push_le (hvalid : s.Valid peer) (addr : ℕ)
    (syncMsg : BlockSyncMessage) :
    (s.push addr syncMsg).requests peer ≤
      request syncMsg ::ₘ s.requests peer := by
  by_cases h : s.stored peer = some addr
  · obtain ⟨queue, hqueue, hrequests⟩ := hvalid.queueAt h
    rw [requests_push_of_eq h hqueue, hrequests]
    exact DownloadRequestQueue.requests_push_le _ _ _ _
  · rw [requests_push_of_ne syncMsg h]
    exact Multiset.le_cons_self _ _

theorem keeps_push (h : s.Valid peer) (addr : ℕ)
    (syncMsg : BlockSyncMessage) :
    Keeps peer s (s.push addr syncMsg) := by
  have hlength : (s.push addr syncMsg).objects.length =
      s.objects.length := by
    unfold push
    exact List.length_modify _ _ _
  exact ⟨rfl, rfl, rfl, hlength.ge, fun _ h => h,
    fun addr' haddr' => (h addr' haddr').trans_eq hlength.symm⟩

/-- What an access does to the queue of the peer: a push is for `requests_push`
and its like, and any other access leaves the queue as it is. -/
theorem access_cases {point next : PeerCall} (hvalid : s.Valid peer)
    (h : s.access peer point = some (u, next)) :
    Keeps peer s u ∧
      ((∃ addr syncMsg, point = .push addr syncMsg ∧
          u = s.push addr syncMsg ∧ next = .idle) ∨
        u.requests peer = s.requests peer ∧ u.pushed = s.pushed ∧
          ((∃ syncMsg, point = .insertEmptyPeer syncMsg ∧
              next = .push s.objects.length syncMsg ∧
              u = s.insertEmptyPeer peer) ∨
            (∀ syncMsg, point ≠ .insertEmptyPeer syncMsg) ∧
              ∀ addr syncMsg, next = .push addr syncMsg →
                u.stored peer = some addr)) := by
  cases point with
  | idle => cases h
  | updatePeerStatus syncMsg =>
      obtain ⟨rfl, rfl⟩ := Prod.mk.inj (Option.some.inj h)
      obtain ⟨hkeeps, hrequests⟩ :=
        keeps_updatePeerStatus hvalid (BlockSyncStatus.ofMessage syncMsg)
      have hpushed := (updatePeerStatus_cases peer
        (BlockSyncStatus.ofMessage syncMsg) s).2.1
      refine ⟨hkeeps, .inr ⟨hrequests, hpushed, .inr ⟨?_, ?_⟩⟩⟩
      · exact fun _ h => PeerCall.noConfusion h
      · exact fun _ _ h => PeerCall.noConfusion h
  | peerStatus syncMsg =>
      rw [access] at h
      split at h
      · next addr hstored =>
          obtain ⟨rfl, rfl⟩ := Prod.mk.inj (Option.some.inj h)
          refine ⟨.refl hvalid, .inr ⟨rfl, rfl, .inr ⟨?_, ?_⟩⟩⟩
          · exact fun _ h => PeerCall.noConfusion h
          · intro addr' syncMsg' hnext
            obtain ⟨rfl, -⟩ := PeerCall.push.inj hnext
            exact hstored
      · obtain ⟨rfl, rfl⟩ := Prod.mk.inj (Option.some.inj h)
        refine ⟨.refl hvalid, .inr ⟨rfl, rfl, .inr ⟨?_, ?_⟩⟩⟩
        · exact fun _ h => PeerCall.noConfusion h
        · intro addr' syncMsg' hnext
          split_ifs at hnext
  | insertEmptyPeer syncMsg =>
      obtain ⟨rfl, rfl⟩ := Prod.mk.inj (Option.some.inj h)
      obtain ⟨hkeeps, hrequests, -⟩ := keeps_insertEmptyPeer hvalid
      exact ⟨hkeeps, .inr ⟨hrequests, rfl, .inl ⟨syncMsg, rfl, rfl, rfl⟩⟩⟩
  | push addr syncMsg =>
      obtain ⟨rfl, rfl⟩ := Prod.mk.inj (Option.some.inj h)
      exact ⟨keeps_push hvalid addr syncMsg,
        .inl ⟨addr, syncMsg, rfl, rfl, rfl⟩⟩

/-- A step starts a handler, or makes the next access of one. -/
theorem step_cases {i : Input} (h : s.step peer i = some t) :
    (∃ call syncMsg, i = .receive call syncMsg ∧ s.calls call = .idle ∧
      t = s.setCall call (s.start peer syncMsg)) ∨
    ∃ call u next, i = .advance call ∧
      s.access peer (s.calls call) = some (u, next) ∧
      t = u.setCall call next := by
  cases i with
  | receive call syncMsg =>
      rw [step] at h
      split at h
      · next hidle =>
          exact .inl ⟨call, syncMsg, rfl, hidle, (Option.some.inj h).symm⟩
      · cases h
  | advance call =>
      obtain ⟨⟨u, next⟩, haccess, ht⟩ := Option.map_eq_some_iff.mp h
      exact .inr ⟨call, u, next, rfl, haccess, ht.symm⟩

/-! ## A handler that is left alone -/

section Alone

variable {P : BlockQueue} {node : BlockSync P} {id : Bytes}
  {table : SyncPeerStatus}

/-- The pointers stand for the entries of `table`; no two entries share an
object. -/
structure Represents (s : SharedPeers) (table : SyncPeerStatus) : Prop where
  lookup : ∀ id, table.lookup id =
    (s.peersStatus.lookup id).bind fun addr => s.objects[addr]?
  valid : ∀ id addr, s.peersStatus.lookup id = some addr →
    addr < s.objects.length
  distinct : ∀ id id' addr, s.peersStatus.lookup id = some addr →
    s.peersStatus.lookup id' = some addr → id = id'

theorem Represents.insert (h : s.Represents table) {p : PeerStatus}
    (htable : u.peersStatus = s.peersStatus.insert id s.objects.length)
    (hobjects : u.objects = s.objects ++ [p]) :
    u.Represents (table.insert id p) := by
  have hnew : u.peersStatus.lookup id = some s.objects.length := by
    rw [htable]
    exact AList.lookup_insert _
  have hold : ∀ id' ≠ id,
      u.peersStatus.lookup id' = s.peersStatus.lookup id' := by
    intro id' hne
    rw [htable]
    exact AList.lookup_insert_ne hne
  have hvalid : ∀ id' addr, u.peersStatus.lookup id' = some addr →
      id' = id ∧ addr = s.objects.length ∨
        id' ≠ id ∧ s.peersStatus.lookup id' = some addr ∧
          addr < s.objects.length := by
    intro id' addr haddr
    by_cases hne : id' = id
    · subst hne
      exact .inl ⟨rfl, (Option.some.inj (hnew.symm.trans haddr)).symm⟩
    · rw [hold id' hne] at haddr
      exact .inr ⟨hne, haddr, h.valid id' addr haddr⟩
  refine ⟨fun id' => ?_, fun id' addr haddr => ?_,
    fun id₁ id₂ addr h₁ h₂ => ?_⟩
  · by_cases hne : id' = id
    · subst hne
      rw [AList.lookup_insert, hnew, Option.bind_some, hobjects,
        List.getElem?_concat_length]
    · rw [AList.lookup_insert_ne hne, h.lookup, hold id' hne]
      cases haddr : s.peersStatus.lookup id' with
      | none => rfl
      | some addr =>
          rw [Option.bind_some, Option.bind_some, hobjects,
            getElem?_append_new (h.valid id' addr haddr)]
  · rw [hobjects, List.length_append, List.length_singleton]
    rcases hvalid id' addr haddr with ⟨-, rfl⟩ | ⟨-, -, hlt⟩ <;> omega
  · rcases hvalid id₁ addr h₁ with ⟨rfl, rfl⟩ | ⟨-, h₁, hlt₁⟩ <;>
      rcases hvalid id₂ _ h₂ with ⟨rfl, heq⟩ | ⟨-, h₂, hlt₂⟩
    · rfl
    · exact absurd hlt₂ (lt_irrefl _)
    · exact absurd hlt₁ (heq ▸ lt_irrefl _)
    · exact h.distinct id₁ id₂ addr h₁ h₂

theorem Represents.replace (h : s.Represents table)
    (haddr : s.peersStatus.lookup id = some addr) {p : PeerStatus}
    (htable : u.peersStatus = s.peersStatus)
    (hobjects : u.objects = s.objects.set addr p) :
    u.Represents (table.replace id p) := by
  have hlt := h.valid id addr haddr
  refine ⟨fun id' => ?_, fun id' addr' haddr' => ?_, ?_⟩
  · rw [SyncPeerStatus.lookup_replace, htable, hobjects]
    split_ifs with hid
    · subst hid
      rw [h.lookup, haddr, Option.bind_some, Option.bind_some,
        List.getElem?_eq_getElem hlt, Option.map_some,
        List.getElem?_set_self hlt]
    · rw [h.lookup]
      cases haddr' : s.peersStatus.lookup id' with
      | none => rfl
      | some addr' =>
          rw [Option.bind_some, Option.bind_some, List.getElem?_set_ne]
          rintro rfl
          exact hid (h.distinct id' id addr haddr' haddr)
  · rw [hobjects, List.length_set]
    rw [htable] at haddr'
    exact h.valid id' addr' haddr'
  · rw [htable]
    exact h.distinct

theorem Represents.updatePeerStatus (h : s.Represents table)
    (peer : PublicPtr) (status : BlockSyncStatus) :
    (s.updatePeerStatus peer status).Represents
        (SyncPeerStatus.updatePeerStatus peer status table s.config).1 ∧
      (s.updatePeerStatus peer status).config =
        (SyncPeerStatus.updatePeerStatus peer status table s.config).2 := by
  unfold SharedPeers.updatePeerStatus SyncPeerStatus.updatePeerStatus
  have hlookup := h.lookup peer.data
  split_ifs
  · exact ⟨h, rfl⟩
  · cases haddr : s.peersStatus.lookup peer.data with
    | none =>
        rw [haddr, Option.bind_none] at hlookup
        simp only [hlookup]
        exact ⟨h.insert rfl rfl, trivial⟩
    | some addr =>
        have hentry := List.getElem?_eq_getElem (h.valid _ addr haddr)
        rw [haddr, Option.bind_some, hentry] at hlookup
        simp only [hlookup, hentry]
        exact ⟨h.replace haddr rfl rfl, trivial⟩

theorem Represents.push (h : s.Represents table)
    (haddr : s.peersStatus.lookup id = some addr) {p : PeerStatus}
    (hp : table.lookup id = some p) (syncMsg : BlockSyncMessage) :
    (s.push addr syncMsg).Represents
      (table.replace id
        { p with
          downloadRequests := p.downloadRequests.push
            s.config.maxDownloadRequestQueueSize syncMsg.number
            (toSize syncMsg.size) }) := by
  have hlookup := h.lookup id
  rw [haddr, Option.bind_some, hp] at hlookup
  refine h.replace haddr rfl ?_
  unfold SharedPeers.push
  rw [List.modify_eq_set_getElem?, ← hlookup]
  rfl

/-- A peer without an entry is given the new object. -/
theorem Represents.insertEmptyPeer (h : s.Represents table)
    (hnone : s.peersStatus.lookup peer.data = none) :
    (s.insertEmptyPeer peer).Represents (table.insertEmptyPeer peer) ∧
      (s.insertEmptyPeer peer).peersStatus.lookup peer.data =
        some s.objects.length ∧
      (table.insertEmptyPeer peer).lookup peer.data =
        some (PeerStatus.newEmpty peer) := by
  have hlookup := h.lookup peer.data
  rw [hnone, Option.bind_none] at hlookup
  unfold SharedPeers.insertEmptyPeer SyncPeerStatus.insertEmptyPeer
    SyncPeerStatus.insertNew
  simp only [hnone, hlookup]
  exact ⟨h.insert rfl rfl, stored_insert s, AList.lookup_insert _⟩

/-- The config and the table of `node`. -/
structure Mirrors (s : SharedPeers) (node : BlockSync P) : Prop where
  config : s.config = node.config
  represents : s.Represents node.syncStatus

/-- A handler makes one access after another. -/
abbrev Accesses (peer : PublicPtr) :
    SharedPeers × PeerCall → SharedPeers × PeerCall → Prop :=
  Relation.ReflTransGen fun x y => x.1.access peer x.2 = some y

/-- A handler of a status. -/
theorem accesses_onPeerStatus (h : s.Mirrors node)
    (hstatus : syncMsg.packetType =
      BlockSyncPacketType.blockStatusPacket) :
    ∃ u, Accesses peer (s, s.start peer syncMsg) (u, .idle) ∧
      u.Mirrors (node.onPeerStatus peer syncMsg) := by
  unfold start BlockSync.onPeerStatus
  rw [if_pos hstatus, h.config]
  split_ifs
  · exact ⟨s, .refl, h⟩
  · obtain ⟨hrepresents, hconfig⟩ := h.represents.updatePeerStatus peer
      (BlockSyncStatus.ofMessage syncMsg)
    rw [h.config] at hrepresents hconfig
    exact ⟨_, .single rfl, hconfig, hrepresents⟩

/-- A handler of a request. -/
theorem accesses_onPeerBlocksRequest (h : s.Mirrors node)
    (hrequest : syncMsg.packetType =
      BlockSyncPacketType.blockRequestPacket) :
    ∃ u, Accesses peer (s, s.start peer syncMsg) (u, .idle) ∧
      u.Mirrors (node.onPeerBlocksRequest peer syncMsg) := by
  have hstart : s.start peer syncMsg = .peerStatus syncMsg := by
    rw [start, hrequest, if_neg (by decide), if_pos rfl]
  rw [hstart]
  unfold BlockSync.onPeerBlocksRequest SyncPeerStatus.peerStatus
  have hlookup := h.represents.lookup peer.data
  cases haddr : s.peersStatus.lookup peer.data with
  | some addr =>
      have hentry :=
        List.getElem?_eq_getElem (h.represents.valid _ addr haddr)
      rw [haddr, Option.bind_some, hentry] at hlookup
      have hask : s.access peer (.peerStatus syncMsg) =
          some (s, .push addr syncMsg) := by
        rw [access, haddr]
      have hpush := h.represents.push haddr hlookup syncMsg
      refine ⟨s.push addr syncMsg, .head hask (.single rfl), ?_⟩
      rw [if_neg (by simp [hlookup])]
      simp only [hlookup]
      rw [h.config] at hpush
      exact ⟨h.config, hpush⟩
  | none =>
      rw [haddr, Option.bind_none] at hlookup
      by_cases hgroup : s.config.existsInGroup peer = true
      · have hask : s.access peer (.peerStatus syncMsg) =
            some (s, .insertEmptyPeer syncMsg) := by
          rw [access, haddr]
          exact congrArg (fun point => some (s, point)) (if_pos hgroup)
        refine ⟨(s.insertEmptyPeer peer).push s.objects.length syncMsg,
          .head hask (.head rfl (.single rfl)), ?_⟩
        obtain ⟨hinsert, hnew, hentry⟩ :=
          h.represents.insertEmptyPeer haddr
        have hpush := hinsert.push hnew hentry syncMsg
        rw [if_pos (by simp [hlookup, ← h.config, hgroup])]
        simp only [hentry]
        rw [show (s.insertEmptyPeer peer).config = node.config from
          h.config] at hpush
        exact ⟨h.config, hpush⟩
      · have hask : s.access peer (.peerStatus syncMsg) =
            some (s, .idle) := by
          rw [access, haddr]
          exact congrArg (fun point => some (s, point)) (if_neg hgroup)
        refine ⟨s, .single hask, ?_⟩
        rw [if_neg (by simp [← h.config, hgroup])]
        simp only [hlookup]
        exact h

/-- A handler that is left alone does to the config and the table what
`asyncNotifyBlockSyncMessage` does in one step. -/
theorem accesses_asyncNotifyBlockSyncMessage (h : s.Mirrors node)
    (peer : PublicPtr) (syncMsg : BlockSyncMessage) :
    ∃ u, Accesses peer (s, s.start peer syncMsg) (u, .idle) ∧
      u.Mirrors (node.asyncNotifyBlockSyncMessage peer syncMsg) := by
  unfold BlockSync.asyncNotifyBlockSyncMessage
  split_ifs with hstatus hrequest hresponse
  · exact accesses_onPeerStatus h hstatus
  · exact accesses_onPeerBlocksRequest h hrequest
  · refine ⟨s, ?_, h.config, h.represents⟩
    rw [start, if_neg hstatus, if_neg hrequest]
  · refine ⟨s, ?_, h⟩
    rw [start, if_neg hstatus, if_neg hrequest]

theorem updatePeerStatus_setCall (status : BlockSyncStatus) (call : ℕ)
    (c : PeerCall) :
    (s.setCall call c).updatePeerStatus peer status =
      (s.updatePeerStatus peer status).setCall call c := by
  unfold updatePeerStatus setCall
  dsimp only
  by_cases hgenesis : status.genesisHash ≠ s.config.genesisHash
  · rw [if_pos hgenesis, if_pos hgenesis]
  · rw [if_neg hgenesis, if_neg hgenesis]
    cases s.peersStatus.lookup peer.data with
    | none => rfl
    | some addr => cases hentry : s.objects[addr]? <;> simp only [hentry]

/-- An access does not depend on where the handlers are. -/
theorem access_setCall (call : ℕ) (c point : PeerCall) :
    (s.setCall call c).access peer point =
      (s.access peer point).map fun (u, next) => (u.setCall call c, next) := by
  cases point with
  | idle | insertEmptyPeer syncMsg | push addr syncMsg => rfl
  | updatePeerStatus syncMsg =>
      rw [access, updatePeerStatus_setCall]
      rfl
  | peerStatus syncMsg =>
      simp only [access, setCall]
      cases s.peersStatus.lookup peer.data <;> rfl

/-- The accesses of a handler as steps of the system. -/
theorem exec_of_accesses {x y : SharedPeers × PeerCall}
    (h : Accesses peer x y) (call : ℕ) :
    ∃ n, (sharedPeers peer).exec (x.1.setCall call x.2)
        (List.replicate n (.advance call)) =
      some (y.1.setCall call y.2) := by
  induction h using Relation.ReflTransGen.head_induction_on with
  | refl => exact ⟨0, rfl⟩
  | @head x z hcall _ ih =>
      obtain ⟨n, hrest⟩ := ih
      refine ⟨n + 1, exec_cons ?_ hrest⟩
      refine Option.map_eq_some_iff.mpr ⟨(z.1.setCall call x.2, z.2), ?_, ?_⟩
      · rw [calls_setCall, access_setCall, hcall]
        rfl
      · simp only [setCall, Function.update_idem]

/-- A packet whose handler is left alone. -/
theorem exec_asyncNotifyBlockSyncMessage (h : s.Mirrors node) (call : ℕ)
    (hidle : s.calls call = .idle) (syncMsg : BlockSyncMessage) :
    ∃ n t, (sharedPeers peer).exec s
        (.receive call syncMsg :: List.replicate n (.advance call)) =
          some t ∧
      t.Mirrors (node.asyncNotifyBlockSyncMessage peer syncMsg) := by
  obtain ⟨u, haccesses, hmirrors⟩ :=
    accesses_asyncNotifyBlockSyncMessage h peer syncMsg
  obtain ⟨n, hrun⟩ := exec_of_accesses haccesses call
  obtain ⟨hconfig, hlookup, hvalid, hdistinct⟩ := hmirrors
  refine ⟨n, _, exec_cons ?_ hrun, hconfig, hlookup, hvalid,
    hdistinct⟩
  exact show s.step peer (.receive call syncMsg) = _ by rw [step, hidle]

end Alone

end SharedPeers

end BcosSync
