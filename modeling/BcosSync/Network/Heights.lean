import BcosSync.Network.Ledger

/-!
# The heights a network speaks of

In a network whose members hear of each other only, every height that a member
knows of, asks for or answers has been reached by the member it is about.  A
height, once reached, stays reached, so these facts survive whatever the others
do and however late a packet arrives.

Two things follow.  A member is never asked for a height that its ledger does
not have, and so its send processor never has to push a height back.
-/

namespace BcosSync

open MachineInt BlockSync SyncPeerStatus DownloadRequestQueue MessagePassing

variable {P : BlockQueue} {κ : Type} {D : Deployment κ}
  {N N' : κ → Member P} {k : κ}

/-- The requests of the queue are for heights between 1 and `n`. -/
def DownloadRequestQueue.AsksUpTo (q : DownloadRequestQueue) (n : ℤ) :
    Prop :=
  ∀ r ∈ q.requests, 1 ≤ r.fromNumber ∧ r.stop ≤ n + 1

theorem DownloadRequestQueue.AsksUpTo.push {q : DownloadRequestQueue} {n : ℤ}
    (h : q.AsksUpTo n) {number size : ℤ} (hn : n + 1 < 2 ^ 63)
    (hlow : 1 ≤ number) (hsize : 0 ≤ size) (hhigh : number + size ≤ n + 1)
    (capacity : ℕ) : (q.push capacity number size).AsksUpTo n := by
  intro r hr
  rcases Multiset.mem_cons.mp (Multiset.mem_of_le
    (requests_push_le capacity number size q) hr) with rfl | hr
  · obtain ⟨hfrom, hstop⟩ := @make_inRange (number, size)
      ⟨by omega, hsize, by omega⟩
    rw [hfrom, hstop]
    exact ⟨hlow, hhigh⟩
  · exact h r hr

namespace Deployment

/-- The member with this key has reached height `n`. -/
def Reached (D : Deployment κ) (N : κ → Member P) (id : Bytes) (n : ℤ) :
    Prop :=
  0 ≤ n ∧ ∃ j, D.key j = id ∧ n ≤ (N j).height

/-- A packet of `k` names heights that have been reached: a status and a block
one of `k`, a request those of the member it is sent to. -/
def NamesReached (D : Deployment κ) (N : κ → Member P) (k : κ)
    (m : PublicPtr × Packet) : Prop :=
  m.2.InRange ∧
    match m.2 with
    | .status msg => 0 ≤ msg.number ∧ msg.number ≤ (N k).height
    | .request number size => 1 ≤ number ∧ 0 < size ∧
        ∀ j, D.key j = m.1.data → number + size ≤ (N j).height + 1
    | .blocks number _ => 1 ≤ number ∧ number ≤ (N k).height

/-- An entry has a height that its peer has reached, and requests for heights
that `k` has reached. -/
structure EntryReached (D : Deployment κ) (N : κ → Member P) (k : κ)
    (id : Bytes) (p : PeerStatus) : Prop where
  number : D.Reached N id p.number
  asked : p.downloadRequests.AsksUpTo (N k).height

/-- What a member knows has been reached. -/
structure KnowsReached (D : Deployment κ) (N : κ → Member P) (k : κ) :
    Prop where
  nodeID : (N k).sync.config.nodeID.data = D.key k
  maxRequestBlocks : (N k).sync.config.maxRequestBlocks = 8
  maxShardPerPeer : (N k).sync.config.maxShardPerPeer = 2
  wellKept : (N k).sync.peerSide.WellKept
  confirms : (N k).Confirms (N k).height
  known : ∃ j, (N k).sync.config.knownHighestNumber ≤ (N j).height
  entries : (N k).sync.syncStatus.Forall (D.EntryReached N k)

/-- No height falls. -/
abbrev Rises (N N' : κ → Member P) : Prop :=
  ∀ k, (N k).height ≤ (N' k).height

/-! ## Heights that have been reached stay so -/

theorem Reached.mono {id : Bytes} {n : ℤ} (h : D.Reached N id n)
    (hN : Rises N N') : D.Reached N' id n := by
  obtain ⟨hnonneg, j, hj, hle⟩ := h
  exact ⟨hnonneg, j, hj, hle.trans (hN j)⟩

theorem NamesReached.mono {m : PublicPtr × Packet}
    (h : D.NamesReached N k m) (hN : Rises N N') : D.NamesReached N' k m := by
  have hk := hN k
  obtain ⟨dst, packet⟩ := m
  obtain ⟨hrange, hnamed⟩ := h
  refine ⟨hrange, ?_⟩
  cases packet with
  | status msg => exact ⟨hnamed.1, hnamed.2.trans hk⟩
  | request number size =>
      obtain ⟨hlow, hsize, hhigh⟩ := hnamed
      refine ⟨hlow, hsize, fun j hj => ?_⟩
      exact (hhigh j hj).trans (Int.add_le_add_right (hN j) 1)
  | blocks number blockData => exact ⟨hnamed.1, hnamed.2.trans hk⟩

theorem EntryReached.mono {id : Bytes} {p : PeerStatus}
    (h : D.EntryReached N k id p) (hN : Rises N N') :
    D.EntryReached N' k id p := by
  have hk := hN k
  refine ⟨h.number.mono hN, fun r hr => ?_⟩
  obtain ⟨hlow, hhigh⟩ := h.asked r hr
  exact ⟨hlow, by omega⟩

theorem stable_reached (D : Deployment κ) :
    Stable (σ := Member P) (fun m m' => m.height ≤ m'.height) D.KnowsReached
      D.NamesReached where
  refl m := le_refl m.height
  knows N N' hN k hk h := by
    obtain ⟨j, hj⟩ := h.known
    refine ⟨?_, ?_, ?_, ?_, ?_, ?_, ?_⟩
    · rw [hk]
      exact h.nodeID
    · rw [hk]
      exact h.maxRequestBlocks
    · rw [hk]
      exact h.maxShardPerPeer
    · rw [hk]
      exact h.wellKept
    · rw [hk]
      exact h.confirms
    · rw [hk]
      exact ⟨j, hj.trans (hN j)⟩
    · rw [hk]
      exact h.entries.mono fun id p hp => hp.mono hN
  messages N N' hN k m h := h.mono hN

/-! ## What a member knows -/

namespace KnowsReached

theorem height_lt (h : D.KnowsReached N k) : (N k).height + 8 < 2 ^ 63 := by
  have hlt := h.confirms.lt
  rwa [h.maxRequestBlocks] at hlt

theorem requestsFit (hall : ∀ j, D.KnowsReached N j) :
    (N k).sync.config.RequestsFit := by
  obtain ⟨j, hj⟩ := (hall k).known
  have hlt := (hall j).height_lt
  have hrequest := (hall k).maxRequestBlocks
  refine ⟨(hall k).confirms.nonneg, ?_, ?_⟩
  · omega
  · omega

/-- What a queue asks for is between 1 and the height of the member. -/
theorem wants (hk : D.KnowsReached N k) {id : Bytes}
    {p : PeerStatus} (hp : (N k).sync.syncStatus.lookup id = some p) :
    p.downloadRequests.InRange ∧
      ∀ n, p.downloadRequests.Wants n → 1 ≤ n ∧ n ≤ (N k).height := by
  have hlt := hk.height_lt
  constructor
  · intro r hr
    obtain ⟨hlow, hhigh⟩ := (hk.entries id p hp).asked r hr
    omega
  · rintro n ⟨r, hr, hin⟩
    obtain ⟨hlow, hhigh⟩ := (hk.entries id p hp).asked r hr
    omega

theorem finishesServing (hk : D.KnowsReached N k)
    (rand : ℕ → ℕ) :
    (N k).sync.FinishesServing ((N k).ledger D) rand := by
  refine finishesServing_of_serves hk.wellKept fun id p hp => ?_
  obtain ⟨hrange, hwants⟩ := hk.wants hp
  refine serves_iff_fetched.mpr fun n hn => ?_
  obtain ⟨hlow, hhigh⟩ := hwants n (hrange.mem_fetched.mp hn)
  exact hk.confirms.holds.not_lacks (by omega) hhigh

theorem sendsHeights (hk : D.KnowsReached N k)
    {rand : ℕ → ℕ} {fuel : ℕ} {s : BlockSync P} {id : Bytes} {p : PeerStatus}
    (hp : (N k).sync.syncStatus.lookup id = some p)
    (hserved : (N k).sync.maintainBlockRequest ((N k).ledger D) rand fuel =
      some s) :
    SendsHeights ((N k).ledger D)
      (fun n => p.downloadRequests.Wants n ∧ ((N k).ledger D).Readable n) id
      (N k).sync s := by
  obtain ⟨hrange, hwants⟩ := hk.wants hp
  refine sendsHeights_of_pass hk.wellKept hp hrange (fun n => Iff.rfl)
    (fun n hn => ?_) hserved
  obtain ⟨hlow, hhigh⟩ := hwants n hn
  exact hk.confirms.holds.not_lacks (by omega) hhigh

end KnowsReached

/-! ## Entries -/

section Entries

variable {id : Bytes} {p : PeerStatus} {status : BlockSyncStatus}

theorem EntryReached.update (h : D.EntryReached N k id p)
    (hstatus : D.Reached N id status.number) :
    D.EntryReached N k id (p.update status).2 := by
  unfold PeerStatus.update
  split_ifs
  · exact h
  · exact h
  · exact ⟨hstatus, h.asked⟩
  · exact ⟨hstatus, h.asked⟩

theorem asksUpTo_of_empty {q : DownloadRequestQueue} (h : q.requests = 0)
    (n : ℤ) : q.AsksUpTo n := by
  intro r hr
  rw [h] at hr
  exact absurd hr (Multiset.notMem_zero r)

theorem entryReached_new (peer : PublicPtr)
    (hstatus : D.Reached N id status.number) :
    D.EntryReached N k id (.new peer status) :=
  ⟨hstatus, asksUpTo_of_empty requestQueue.elems_empty _⟩

theorem entryReached_newEmpty (peer : PublicPtr) (h : D.Reached N id 0) :
    D.EntryReached N k id (.newEmpty peer) :=
  ⟨h, asksUpTo_of_empty requestQueue.elems_empty _⟩

end Entries

/-! ## What a step keeps -/

variable {t : Member P}

/-- A member that asks an entry's peer asks for heights the peer has
reached. -/
theorem namesReached_request {m : PublicPtr × Packet}
    (hkept : t.sync.peerSide.WellKept)
    (hentries : t.sync.syncStatus.Forall (D.EntryReached N' k))
    (hnonneg : 0 ≤ t.height) (hlt : ∀ j, (N' j).height + 8 < 2 ^ 63)
    (h : t.sync.Requests m) : D.NamesReached N' k m := by
  obtain ⟨id, p, number, size, hp, hask, rfl⟩ := h
  obtain ⟨-, j, hj, hreached⟩ := (hentries id p hp).number
  have hkey : p.nodeId.data = id := (hkept id p hp).1
  have habove : t.height < number := hask.above
  have hwithin := hask.within
  have hatTop := hask.atTop
  have hpos := hask.size_pos
  have hbound := hlt j
  refine ⟨⟨⟨?_, ?_⟩, ?_⟩, ?_, hpos, fun j' hj' => ?_⟩
  · omega
  · omega
  · omega
  · omega
  · obtain rfl : j' = j := D.key_injective (hj'.trans (hkey.trans hj.symm))
    omega

/-- The number of a packet that arrives has been reached by a member. -/
theorem exists_height_of_message {src : κ} {m : PublicPtr × Packet}
    (h : D.NamesReached N src m) (hdst : m.1.data = D.key k) :
    ∃ j, m.2.message.number ≤ (N j).height := by
  obtain ⟨dst, packet⟩ := m
  obtain ⟨-, hnamed⟩ := h
  cases packet with
  | status msg => exact ⟨src, hnamed.2⟩
  | request number size =>
      obtain ⟨hlow, hsize, hhigh⟩ := hnamed
      have hk := hhigh k hdst.symm
      refine ⟨k, ?_⟩
      change number ≤ (N k).height
      omega
  | blocks number blockData => exact ⟨src, hnamed.2⟩

variable [DecidableEq κ]

/-- All members know and name heights that have been reached. -/
abbrev AllReached (D : Deployment κ) (N : κ → Member P) : Prop :=
  (D.members P).Sound D.KnowsReached D.NamesReached N

/-- Member `k` goes on to `t`, and all members still know and name heights
that have been reached. -/
abbrev KeepsReached (D : Deployment κ) (N : κ → Member P) (k : κ)
    (t : Member P) : Prop :=
  (D.members P).Keeps (fun m m' => m.height ≤ m'.height) D.KnowsReached
    D.NamesReached N k t

theorem rises_update (h : (N k).height ≤ t.height) :
    Rises N (Function.update N k t) :=
  goesOn_update (R := fun m m' : Member P => m.height ≤ m'.height)
    (fun m => le_refl m.height) h

/-- A member that announces its height names one it has reached. -/
theorem namesReached_announce {m : PublicPtr × Packet}
    (ht : t.Confirms t.height) (h : t.sync.Announces m) :
    D.NamesReached (Function.update N k t) k m := by
  obtain ⟨dst, packet⟩ := m
  obtain ⟨-, rfl⟩ := h
  have hlt := ht.lt
  have hnonneg := ht.nonneg
  have hnumber : (currentStatus t.sync.config).number = t.height := rfl
  refine ⟨⟨⟨?_, ?_⟩, ?_⟩, ?_⟩
  · change (-2 ^ 31 : ℤ) ≤ 0
    decide
  · change (0 : ℤ) < 2 ^ 31
    decide
  · rw [hnumber]
    omega
  · dsimp only
    rw [Function.update_self, hnumber]
    exact ⟨hnonneg, le_rfl⟩

theorem AllReached.update_height_lt (hN : D.AllReached N)
    (ht : (N k).GoesOn t) (j : κ) :
    (Function.update N k t j).height + 8 < 2 ^ 63 := by
  by_cases hj : j = k
  · subst hj
    have hlt := ht.confirms.lt
    rw [Function.update_self]
    rwa [ht.maxRequestBlocks, (hN.knows j).maxRequestBlocks] at hlt
  · rw [Function.update_of_ne hj]
    exact (hN.knows j).height_lt

/-- What there is to show for a member that goes on to `t`. -/
theorem keepsReached_of (hN : D.AllReached N) (ht : (N k).GoesOn t)
    (hknown : t.sync.config.knownHighestNumber ≤
        (N k).sync.config.knownHighestNumber ∨
      ∃ j, t.sync.config.knownHighestNumber ≤
        (Function.update N k t j).height)
    (hentries : t.sync.syncStatus.Forall
      (D.EntryReached (Function.update N k t) k))
    (hsent : ∀ m ∈ t.sync.outbox, m ∈ (N k).sync.outbox ∨
      D.NamesReached (Function.update N k t) k m) :
    D.KeepsReached N k t := by
  have hk := hN.knows k
  have hself : Function.update N k t k = t := Function.update_self k t N
  refine ⟨ht.height_le, ⟨?_, ?_, ?_, ?_, ?_, ?_, ?_⟩, hsent⟩
  · rw [hself, ht.nodeID]
    exact hk.nodeID
  · rw [hself, ht.maxRequestBlocks]
    exact hk.maxRequestBlocks
  · rw [hself, ht.maxShardPerPeer]
    exact hk.maxShardPerPeer
  · rw [hself]
    exact ht.wellKept hk.wellKept
  · rw [hself]
    exact ht.confirms
  · rw [hself]
    refine hknown.elim (fun hle => ?_) id
    obtain ⟨j, hj⟩ := hk.known
    exact ⟨j, (hle.trans hj).trans (rises_update ht.height_le j)⟩
  · rwa [hself]

theorem keepsReached_node {i : BlockSync.Input} (hi : ¬ IsMessage i)
    (hN : D.AllReached N)
    (hstep : Member.step D k (N k) (.node i) = some t) :
    D.KeepsReached N k t := by
  have hk := hN.knows k
  have ht := Member.goesOn_node hk.confirms hstep
  have hrises : Rises N (Function.update N k t) := rises_update ht.height_le
  simp only [Member.step] at hstep
  split_ifs at hstep with hvouch
  obtain ⟨sync, hsync, rfl⟩ := Option.map_eq_some_iff.mp hstep
  rw [Member.commit_sync] at hsync
  have hadv := step_advances hsync hvouch.nonNegative hk.confirms.nonneg
  set t : Member P := { (N k).commit i with sync := sync }
  have hown : D.Reached (Function.update N k t)
      (N k).sync.config.nodeID.data
      (currentStatus (N k).sync.config).number :=
    ⟨hk.confirms.nonneg, k, hk.nodeID.symm, hrises k⟩
  have hentries : t.sync.syncStatus.Forall
      (D.EntryReached (Function.update N k t) k) :=
    step_forall hsync hi (hk.entries.mono fun id p hp => hp.mono hrises)
      (fun p hp => hp.update hown) (entryReached_new _ hown)
  refine keepsReached_of hN ht ?_ hentries fun m hm => ?_
  · refine hadv.known.imp_right ?_
    rintro (hheight | ⟨nodeID, syncMsg, rfl, -⟩)
    · refine ⟨k, ?_⟩
      rw [Function.update_self]
      exact hheight
    · exact absurd trivial hi
  · have hfits : (N k).sync.config.RequestsFit :=
      KnowsReached.requestsFit hN.knows
    refine ((step_sends hsync hfits).mem hm).imp_right ?_
    rintro (hannounce | hrequest)
    · exact namesReached_announce ht.confirms hannounce
    · exact namesReached_request (ht.wellKept hk.wellKept) hentries
        ht.confirms.nonneg (hN.update_height_lt ht) hrequest

/-- A pass of the send processor answers with blocks the member has. -/
theorem keepsReached_serve {rand : ℕ → ℕ} {fuel : ℕ} (hN : D.AllReached N)
    (hstep : Member.step D k (N k) (.serve rand fuel) = some t) :
    D.KeepsReached N k t := by
  have hk := hN.knows k
  have hlt := hk.height_lt
  have ht := Member.goesOn_serve hk.confirms hstep
  have hrises : Rises N (Function.update N k t) := rises_update ht.height_le
  obtain ⟨sync, hsync, rfl⟩ := Option.map_eq_some_iff.mp hstep
  have hpass := pass_maintainBlockRequest hsync
  set t : Member P := { N k with sync := sync }
  have hconfig : t.sync.config = (N k).sync.config :=
    (congrArg BlockSync.config hpass.eq :)
  have hentries := hk.entries.mono fun id p hp => hp.mono hrises
  refine keepsReached_of hN ht ?_ ?_ fun m hm => ?_
  · exact .inl (congrArg BlockSyncConfig.knownHighestNumber hconfig).le
  · refine hpass.forall ?_ (fun id p hp => (hk.wellKept id p hp).1) hentries
      hentries
    exact fun id p q hp hq => ⟨hp.number, asksUpTo_of_empty hq _⟩
  · obtain ⟨sent, hout, hsent⟩ := hpass.answers fun id p hp r hr => by
      obtain ⟨hlow, hhigh⟩ := (hk.entries id p hp).asked r hr
      omega
    have hm : m ∈ sent ++ (N k).sync.outbox := hout ▸ hm
    rcases List.mem_append.mp hm with hnew | hold
    · obtain ⟨id, p, n, hp, -, ⟨r, hr, hin⟩, hanswers⟩ := hsent m hnew
      obtain ⟨hlow, hhigh⟩ := (hk.entries id p hp).asked r hr
      obtain ⟨_, blockData, -, -, hpacket⟩ := hanswers
      have hle := hrises k
      obtain ⟨dst, packet⟩ := m
      obtain rfl : packet = .blocks n blockData := hpacket
      exact .inr ⟨⟨by omega, by omega⟩, by omega, by omega⟩
    · exact .inl hold

theorem keepsReached_receive {src : κ} {addr : ℕ}
    {m : PublicPtr × Packet} (hN : D.AllReached N)
    (hm : D.NamesReached N src m)
    (hstep : Member.step D k (N k) (.receive src addr m) = some t) :
    D.KeepsReached N k t := by
  have hk := hN.knows k
  have hlt := hk.height_lt
  have ht := Member.goesOn_receive hk.confirms hstep
  have hrises : Rises N (Function.update N k t) := rises_update ht.height_le
  simp only [Member.step] at hstep
  split_ifs at hstep with hdst
  obtain rfl := Option.some.inj hstep
  rw [receive_packet D.codec hm.1] at ht hrises ⊢
  have hsync : (N k).sync.step D.createBlock
      (.syncMessage ⟨addr, D.key src⟩ m.2.message) =
        some ((N k).sync.asyncNotifyBlockSyncMessage ⟨addr, D.key src⟩
          m.2.message) := rfl
  have htable := fun E => @receive_forall P (N k).sync E m.2
    ⟨addr, D.key src⟩
  have hout := outbox_syncMessage ⟨addr, D.key src⟩ m.2.message (N k).sync
  generalize (N k).sync.asyncNotifyBlockSyncMessage ⟨addr, D.key src⟩
    m.2.message = sync at hsync htable hout ht hrises ⊢
  have hadv := step_advances hsync (fun n hn => by cases hn)
    hk.confirms.nonneg
  set t : Member P := { N k with sync := sync }
  refine keepsReached_of hN ht ?_ ?_ fun m' hm' => ?_
  · refine hadv.known.imp_right ?_
    rintro (hle | ⟨_, _, heq, hle⟩)
    · refine ⟨k, ?_⟩
      rw [Function.update_self]
      exact hle
    · cases heq
      obtain ⟨j, hj⟩ := exists_height_of_message hm hdst
      exact ⟨j, (hle.trans hj).trans (hrises j)⟩
  · refine htable _ (hk.entries.mono fun id p hp => hp.mono hrises) ?_ ?_
    · intro msg hmsg
      obtain ⟨dst, packet⟩ := m
      obtain rfl : packet = .status msg := hmsg
      obtain ⟨-, hnonneg, hle⟩ := hm
      have hreached : D.Reached (Function.update N k t) (D.key src)
          msg.number := ⟨hnonneg, src, rfl, hle.trans (hrises src)⟩
      exact ⟨fun p hp => hp.update hreached, entryReached_new _ hreached⟩
    · intro number size hrequest
      obtain ⟨dst, packet⟩ := m
      obtain rfl : packet = .request number size := hrequest
      obtain ⟨⟨-, hsize⟩, hlow, hpos, hhigh⟩ := hm
      have hown := hhigh k hdst.symm
      have hzero : D.Reached (Function.update N k t) (D.key src) 0 :=
        ⟨le_rfl, src, rfl, (hN.knows src).confirms.nonneg.trans (hrises src)⟩
      have hbound := hN.update_height_lt ht k
      have hle := hrises k
      refine ⟨entryReached_newEmpty _ hzero, fun p hp => ⟨hp.number, ?_⟩⟩
      rw [BlockSyncMsgImpl.toSize_toInt64 hsize]
      exact hp.asked.push (by omega) hlow (Int.natCast_nonneg size)
        (by omega) _
  · exact .inl (hout ▸ hm')

/-- The consensus module appends a block. -/
theorem keepsReached_append {block : BlockData} (hN : D.AllReached N)
    (hstep : Member.step D k (N k) (.append block) = some t) :
    D.KeepsReached N k t := by
  have hk := hN.knows k
  have ht := Member.step_goesOn hk.confirms hstep
  obtain rfl := Option.some.inj hstep
  refine keepsReached_of hN ht (.inl le_rfl) ?_ fun m hm => .inl hm
  exact hk.entries.mono fun id p hp => hp.mono (rises_update le_rfl)

theorem allReached_init (h : (networkSystem D P).IsInit N) :
    D.AllReached N := by
  constructor
  · intro k
    obtain ⟨hinit, hnodeID, hconfirms⟩ := h k
    have hkept := hinit.wellKept
    obtain ⟨htable, -, hrequest, hshards, hknown⟩ := hinit.starts
    refine ⟨hnodeID, hrequest, hshards, hkept, hconfirms, ⟨k, ?_⟩, ?_⟩
    · rw [hknown]
      exact max_le hconfirms.nonneg le_rfl
    · rw [htable]
      exact fun id p hp => nomatch hp
  · intro k m hm
    have hout : (N k).sync.outbox = [] := (h k).isInit.starts.2.1
    have hm : m ∈ (N k).sync.outbox := hm
    rw [hout] at hm
    cases hm

/-- The heights of a network have been reached in all its states. -/
theorem reachable_allReached
    (h : (networkSystem D P).ReachableBy Genuine N) : D.AllReached N := by
  refine ReachableBy.sound (stable_reached D) (fun N => allReached_init) ?_ h
  intro N k i t hi _ hN hsent hstep
  cases i with
  | node i => exact keepsReached_node hi hN hstep
  | serve rand fuel => exact keepsReached_serve hN hstep
  | receive src addr m =>
      have hm := hN.messages src m (hsent (src, m) rfl)
      exact keepsReached_receive hN hm hstep
  | append block => exact keepsReached_append hN hstep

/-- Members of a network know only of heights that have been reached: the
highest known number by some member, that of an entry by the peer itself.
Whatever a member has been asked for is in its ledger, also when the request
arrives late. -/
theorem reachable_heights_reached
    (h : (networkSystem D P).ReachableBy Genuine N) :
    (∀ k, ∃ j, (N k).sync.config.knownHighestNumber ≤ (N j).height) ∧
      (∀ k id p, (N k).sync.syncStatus.lookup id = some p →
        ∃ j, D.key j = id ∧ p.number ≤ (N j).height) ∧
      ∀ k m number size, m ∈ (N k).sync.outbox → m.2 = .request number size →
        ∀ j, D.key j = m.1.data → ∀ n, number ≤ n → n < number + size →
          n ≤ (N j).height ∧ ¬ ((N j).ledger D).Lacks n := by
  have hN := reachable_allReached h
  refine ⟨fun k => (hN.knows k).known, ?_, ?_⟩
  · intro k id p hp
    exact ((hN.knows k).entries id p hp).number.2
  · intro k m number size hm hrequest j hj n hlow hhigh
    have hnamed := (hN.messages k m hm).2
    rw [hrequest] at hnamed
    obtain ⟨hpos, -, hreached⟩ := hnamed
    have hle := hreached j hj
    refine ⟨by omega, ?_⟩
    exact (hN.knows j).confirms.holds.not_lacks (by omega) (by omega)

/-- In a network the loop of the send processor always ends, with every queue
empty.  Each peer is sent those of the heights its queue asks for whose blocks
the member can encode. -/
theorem reachable_serving_answers
    (h : (networkSystem D P).ReachableBy Genuine N) (k : κ) :
    (∀ rand, (N k).sync.FinishesServing ((N k).ledger D) rand) ∧
      ∀ rand fuel t id p, (N k).sync.syncStatus.lookup id = some p →
        (N k).sync.maintainBlockRequest ((N k).ledger D) rand fuel =
          some t →
        SendsHeights ((N k).ledger D)
          (fun n => p.downloadRequests.Wants n ∧
            ((N k).ledger D).Readable n) id (N k).sync t := by
  have hk := (reachable_allReached h).knows k
  exact ⟨hk.finishesServing, fun rand fuel t id p hp hserved =>
    hk.sendsHeights hp hserved⟩

/-- The request of the exchange is for heights 1 and 2. -/
theorem reachable_heights_reached_sample :
    ∃ N, (networkSystem Sample.pair sortedBlockQueue).exec Sample.members
        Sample.exchange = some N ∧
      ¬ ((N true).ledger Sample.pair).Lacks 2 := by
  obtain ⟨N, hrun, hsent, -⟩ := Sample.exec_exchange
  have hreach := (TransitionSystem.ReachableBy.init
    Sample.isInit_members).exec Sample.genuine_exchange hrun
  exact ⟨N, hrun, ((reachable_heights_reached hreach).2.2 false _ 1 2 hsent
    rfl true rfl 2 (by decide) (by decide)).2⟩

/-- The second member has been asked, and it serves. -/
theorem reachable_serving_answers_sample :
    ∃ N p t, (networkSystem Sample.pair sortedBlockQueue).exec Sample.members
        Sample.exchange = some N ∧
      (N true).sync.syncStatus.lookup Sample.nodeID.data = some p ∧
      p.downloadRequests.requests = {DownloadRequest.make 1 2} ∧
      (∀ rand, (N true).sync.FinishesServing ((N true).ledger Sample.pair)
        rand) ∧
      (N true).sync.maintainBlockRequest ((N true).ledger Sample.pair)
        (fun _ => 0) 2 = some t ∧
      SendsHeights ((N true).ledger Sample.pair)
        (fun n => p.downloadRequests.Wants n ∧
          ((N true).ledger Sample.pair).Readable n) Sample.nodeID.data
        (N true).sync t ∧
      sentTo Sample.nodeID.data t.outbox =
        sentTo Sample.nodeID.data (N true).sync.outbox ++
          [.blocks 1 [1, 0], .blocks 2 [2, 0]] := by
  have hserves : (((networkSystem Sample.pair sortedBlockQueue).exec
      Sample.members Sample.exchange).any fun N =>
        ((N true).sync.maintainBlockRequest ((N true).ledger Sample.pair)
          (fun _ => 0) 2).any fun t =>
            sentTo Sample.nodeID.data t.outbox =
              sentTo Sample.nodeID.data (N true).sync.outbox ++
                [.blocks 1 [1, 0], .blocks 2 [2, 0]]) = true := by
    decide
  obtain ⟨N, hrun, -, p, hp, hqueue⟩ := Sample.exec_exchange
  rw [hrun, Option.any_some] at hserves
  obtain ⟨t, ht, hsent⟩ := (Option.any_eq_true _ _).mp hserves
  have hreach := (TransitionSystem.ReachableBy.init
    Sample.isInit_members).exec Sample.genuine_exchange hrun
  obtain ⟨hfinishes, hsends⟩ := reachable_serving_answers hreach true
  exact ⟨N, p, t, hrun, hp, hqueue, hfinishes, ht, hsends _ _ t _ p hp ht,
    of_decide_eq_true hsent⟩

end Deployment

end BcosSync
