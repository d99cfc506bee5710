import BcosSync.Interleaving.PeerTable

/-!
# Requests that are lost between handlers

`onPeerBlocksRequest` looks a peer up and inserts it in two accesses.  Where
another handler has inserted the peer in between, the object it is given is an
orphan, and the request it pushes there is in nobody's queue.
-/

namespace BcosSync

open TransitionSystem

namespace SharedPeers

variable {peer : PublicPtr} {s t u : SharedPeers} {addr call : ℕ}
  {syncMsg : BlockSyncMessage}

/-! ## Invariants -/

/-- Holds in every interleaving: no request is in the queue that has not been
pushed. -/
structure Sound (peer : PublicPtr) (s : SharedPeers) : Prop where
  group : s.config.existsInGroup peer = true
  valid : s.Valid peer
  le : s.requests peer ≤ s.pushed

/-- Handlers about to push hold the stored object, and all that has been
pushed is in its queue. -/
structure Kept (peer : PublicPtr) (s : SharedPeers) : Prop where
  held : ∀ call addr syncMsg, s.calls call = .push addr syncMsg →
    s.stored peer = some addr
  pushed : s.pushed = s.requests peer

/-- A request is lost, or about to be: its handler holds an object that the
table does not. -/
def Lost (peer : PublicPtr) (s : SharedPeers) : Prop :=
  (∃ call addr syncMsg stored, s.calls call = .push addr syncMsg ∧
    s.stored peer = some stored ∧ stored ≠ addr) ∨
  (s.requests peer).card < s.pushed.card

/-- The table has no entry for the peer when `insertEmptyPeer` is called. -/
def InTime (peer : PublicPtr) (s : SharedPeers) : Input → Prop
  | .receive _ _ => True
  | .advance call =>
      ∀ syncMsg, s.calls call = .insertEmptyPeer syncMsg →
        s.stored peer = none

/-- The access finds room where it pushes. -/
def RoomFor (s : SharedPeers) : PeerCall → Prop
  | .push addr _ => s.Room addr
  | _ => True

instance (s : SharedPeers) : DecidablePred s.RoomFor
  | .push addr _ =>
      inferInstanceAs (Decidable (∀ queue ∈ s.queueAt addr, _ < _))
  | .idle | .updatePeerStatus _ | .peerStatus _ | .insertEmptyPeer _ =>
      isTrue trivial

/-- Nothing is pushed to a full queue. -/
def HasRoom (s : SharedPeers) : Input → Prop
  | .receive _ _ => True
  | .advance call => s.RoomFor (s.calls call)

instance (s : SharedPeers) : DecidablePred s.HasRoom
  | .receive _ _ => isTrue trivial
  | .advance call => inferInstanceAs (Decidable (s.RoomFor (s.calls call)))

theorem start_ne_push (s : SharedPeers) (syncMsg m : BlockSyncMessage)
    (addr : ℕ) : s.start peer syncMsg ≠ .push addr m := by
  unfold start
  split_ifs <;> exact fun h => PeerCall.noConfusion h

theorem step_sound {i : Input} (hs : s.Sound peer)
    (h : s.step peer i = some t) : t.Sound peer := by
  rcases step_cases h with ⟨call, syncMsg, rfl, -, rfl⟩ |
    ⟨call, u, next, rfl, haccess, rfl⟩
  · exact ⟨hs.group, hs.valid, hs.le⟩
  · obtain ⟨hkeeps, hcase⟩ := access_cases hs.valid haccess
    refine ⟨hkeeps.group.trans hs.group, hkeeps.valid, ?_⟩
    rcases hcase with ⟨addr, syncMsg, -, rfl, -⟩ | ⟨hrequests, hpushed, -⟩
    · exact (requests_push_le hs.valid addr syncMsg).trans
        (Multiset.cons_le_cons _ hs.le)
    · exact (hrequests.trans_le hs.le).trans_eq hpushed.symm

/-- The handlers that hold the stored object still do when one of them has
made its next access. -/
theorem Kept.held_setCall (hkept : s.Kept peer) (hkeeps : Keeps peer s u)
    {next : PeerCall}
    (hnext : ∀ addr syncMsg, next = .push addr syncMsg →
      u.stored peer = some addr)
    (call : ℕ) :
    ∀ call' addr syncMsg,
      (u.setCall call next).calls call' = .push addr syncMsg →
        (u.setCall call next).stored peer = some addr := by
  intro call' addr syncMsg hcall'
  by_cases heq : call' = call
  · rw [heq, calls_setCall] at hcall'
    exact hnext addr syncMsg hcall'
  · rw [calls_setCall_ne heq, hkeeps.calls] at hcall'
    exact hkeeps.stored addr (hkept.held call' addr syncMsg hcall')

/-- A step with room keeps the requests if and only if `insertEmptyPeer` finds
no entry. -/
theorem step_kept_iff {i : Input} (hs : s.Sound peer)
    (hroom : s.HasRoom i) (hkept : s.Kept peer)
    (h : s.step peer i = some t) : t.Kept peer ↔ s.InTime peer i := by
  rcases step_cases h with ⟨call, syncMsg, rfl, -, rfl⟩ |
    ⟨call, u, next, rfl, haccess, rfl⟩
  · refine iff_of_true ⟨hkept.held_setCall (.refl hs.valid) ?_ call,
      hkept.pushed⟩ trivial
    exact fun addr m h => absurd h (start_ne_push s syncMsg m addr)
  · obtain ⟨hkeeps, hcase⟩ := access_cases hs.valid haccess
    rcases hcase with ⟨addr, syncMsg, hpoint, rfl, rfl⟩ |
      ⟨hrequests, hpushed, hcase⟩
    · have hstored := hkept.held call addr syncMsg hpoint
      rw [HasRoom, hpoint] at hroom
      have hqueue := requests_push hs.valid hstored hroom syncMsg
      refine iff_of_true ⟨hkept.held_setCall hkeeps ?_ call, ?_⟩ ?_
      · exact fun _ _ h => PeerCall.noConfusion h
      · exact (congrArg _ hkept.pushed).trans hqueue.symm
      · intro m hinsert
        cases hpoint.symm.trans hinsert
    · have hboth : u.pushed = u.requests peer := by
        rw [hpushed, hrequests]
        exact hkept.pushed
      rcases hcase with ⟨syncMsg, hpoint, rfl, rfl⟩ | ⟨hpoint, hnext⟩
      · -- the object that is returned is the new one
        have hiff := (keeps_insertEmptyPeer hs.valid).2.2.2
        constructor
        · intro hkept' _ _
          exact hiff.mp (hkept'.held call _ syncMsg (calls_setCall _ _ _))
        · intro htime
          refine ⟨hkept.held_setCall hkeeps ?_ call, hboth⟩
          intro addr m hnext
          obtain ⟨rfl, -⟩ := PeerCall.push.inj hnext
          exact hiff.mpr (htime syncMsg hpoint)
      · exact iff_of_true ⟨hkept.held_setCall hkeeps hnext call, hboth⟩
          fun syncMsg h => absurd h (hpoint syncMsg)

/-- An `insertEmptyPeer` that finds an entry hands out an orphan. -/
theorem lost_of_not_inTime {i : Input} (hs : s.Sound peer)
    (hlate : ¬ s.InTime peer i) (h : s.step peer i = some t) :
    t.Lost peer := by
  rcases step_cases h with ⟨call, syncMsg, rfl, -, rfl⟩ |
    ⟨call, u, next, rfl, haccess, rfl⟩
  · exact absurd trivial hlate
  · unfold InTime at hlate
    push Not at hlate
    obtain ⟨syncMsg, hpoint, hsome⟩ := hlate
    obtain ⟨addr, haddr⟩ := Option.ne_none_iff_exists'.mp hsome
    rw [hpoint] at haccess
    obtain ⟨rfl, rfl⟩ := Prod.mk.inj (Option.some.inj haccess)
    have hkeeps := (keeps_insertEmptyPeer hs.valid).1
    have hlt := hs.valid addr haddr
    exact .inl ⟨call, s.objects.length, syncMsg, addr, calls_setCall _ _ _,
      hkeeps.stored addr haddr, hlt.ne⟩

/-- What is lost stays lost. -/
theorem step_lost {i : Input} (hs : s.Sound peer) (hlost : s.Lost peer)
    (h : s.step peer i = some t) : t.Lost peer := by
  rcases step_cases h with ⟨call, syncMsg, rfl, hidle, rfl⟩ |
    ⟨call, u, next, rfl, haccess, rfl⟩
  · refine hlost.imp_left ?_
    rintro ⟨call', addr, m, stored, hcall', hstored, hne⟩
    refine ⟨call', addr, m, stored, ?_, hstored, hne⟩
    rw [calls_setCall_ne, hcall']
    rintro rfl
    cases hidle.symm.trans hcall'
  · obtain ⟨hkeeps, hcase⟩ := access_cases hs.valid haccess
    rcases hlost with ⟨call', addr, m, stored, hcall', hstored, hne⟩ | hcard
    · by_cases heq : call' = call
      · -- the push to the orphan
        subst heq
        rw [hcall'] at haccess
        obtain ⟨rfl, rfl⟩ := Prod.mk.inj (Option.some.inj haccess)
        have hqueue := requests_push_of_ne (s := s) m
          (hstored.trans_ne fun h => hne (Option.some.inj h))
        have hle := Multiset.card_le_card hs.le
        refine .inr ?_
        calc ((s.push addr m).requests peer).card
            = (s.requests peer).card := congrArg _ hqueue
          _ < s.pushed.card + 1 := Nat.lt_succ_of_le hle
          _ = (s.push addr m).pushed.card := (Multiset.card_cons _ _).symm
      · refine .inl ⟨call', addr, m, stored, ?_, hkeeps.stored _ hstored, hne⟩
        rw [calls_setCall_ne heq, hkeeps.calls, hcall']
    · refine .inr ?_
      rcases hcase with ⟨addr, m, -, rfl, -⟩ | ⟨hrequests, hpushed, -⟩
      · have hle := Multiset.card_le_card (requests_push_le hs.valid addr m)
        rw [Multiset.card_cons] at hle
        calc ((s.push addr m).requests peer).card
            ≤ (s.requests peer).card + 1 := hle
          _ < s.pushed.card + 1 := Nat.succ_lt_succ hcard
          _ = (s.push addr m).pushed.card := (Multiset.card_cons _ _).symm
      · exact (congrArg _ hrequests).trans_lt
          (hcard.trans_eq (congrArg _ hpushed.symm))

/-- Without handlers, a loss is a request that is not in the queue. -/
theorem Quiet.not_lost (hquiet : s.Quiet)
    (hall : s.pushed ≤ s.requests peer) : ¬ s.Lost peer := by
  rintro (⟨call, addr, syncMsg, -, hcall, -⟩ | hcard)
  · cases (hquiet call).symm.trans hcall
  · exact absurd (Multiset.card_le_card hall) (not_le.mpr hcard)

/-! ## The entry -/

/-- The handler is about to leave an entry for the peer in the table. -/
def Enters (genesisHash : HashType) : PeerCall → Prop
  | .updatePeerStatus syncMsg =>
      (BlockSyncStatus.ofMessage syncMsg).genesisHash = genesisHash
  | .peerStatus _ | .insertEmptyPeer _ => True
  | _ => False

/-- A request, or a status of the same chain. -/
def Announces (s : SharedPeers) : Input → Prop
  | .receive _ syncMsg =>
      syncMsg.packetType = BlockSyncPacketType.blockRequestPacket ∨
        syncMsg.packetType = BlockSyncPacketType.blockStatusPacket ∧
          (BlockSyncStatus.ofMessage syncMsg).genesisHash =
            s.config.genesisHash
  | .advance _ => False

/-- There is an entry, or a handler is about to leave one. -/
def Entered (peer : PublicPtr) (s : SharedPeers) : Prop :=
  s.stored peer ≠ none ∨
    ∃ call, Enters s.config.genesisHash (s.calls call)

theorem Keeps.stored_ne_none (hkeeps : Keeps peer s u)
    (h : s.stored peer ≠ none) : u.stored peer ≠ none := by
  obtain ⟨addr, haddr⟩ := Option.ne_none_iff_exists'.mp h
  rw [hkeeps.stored addr haddr]
  exact Option.some_ne_none addr

theorem stored_updatePeerStatus {status : BlockSyncStatus}
    (hvalid : s.Valid peer)
    (h : status.genesisHash = s.config.genesisHash) :
    (s.updatePeerStatus peer status).stored peer ≠ none := by
  cases hstored : s.stored peer with
  | some addr =>
      have hkeeps := (keeps_updatePeerStatus hvalid status).1
      exact hkeeps.stored_ne_none (hstored.trans_ne (Option.some_ne_none _))
  | none =>
      have hlookup : s.peersStatus.lookup peer.data = none := hstored
      rw [updatePeerStatus, if_neg (not_not.mpr h), hlookup]
      exact (stored_insert s).trans_ne (Option.some_ne_none _)

/-- The access of a handler that is about to leave an entry leaves it, or the
handler is still about to. -/
theorem entered_access {point next : PeerCall} (hs : s.Sound peer)
    (h : s.access peer point = some (u, next))
    (henters : Enters s.config.genesisHash point) :
    u.stored peer ≠ none ∨ Enters u.config.genesisHash next := by
  cases point with
  | idle | push addr syncMsg => exact henters.elim
  | updatePeerStatus syncMsg =>
      obtain ⟨rfl, rfl⟩ := Prod.mk.inj (Option.some.inj h)
      exact .inl (stored_updatePeerStatus hs.valid henters)
  | peerStatus syncMsg =>
      rw [access] at h
      split at h
      · next addr hstored =>
          obtain ⟨rfl, rfl⟩ := Prod.mk.inj (Option.some.inj h)
          exact .inl (hstored.trans_ne (Option.some_ne_none addr))
      · obtain ⟨rfl, rfl⟩ := Prod.mk.inj (Option.some.inj h)
        rw [if_pos hs.group]
        exact .inr trivial
  | insertEmptyPeer syncMsg =>
      obtain ⟨rfl, rfl⟩ := Prod.mk.inj (Option.some.inj h)
      exact .inl (keeps_insertEmptyPeer hs.valid).2.2.1

theorem step_entered {i : Input} (hs : s.Sound peer)
    (hentered : s.Entered peer) (h : s.step peer i = some t) :
    t.Entered peer := by
  rcases step_cases h with ⟨call, syncMsg, rfl, hidle, rfl⟩ |
    ⟨call, u, next, rfl, haccess, rfl⟩
  · refine hentered.imp_right ?_
    rintro ⟨call', hcall'⟩
    refine ⟨call', ?_⟩
    rw [calls_setCall_ne]
    · exact hcall'
    · rintro rfl
      rw [hidle] at hcall'
      exact hcall'
  · obtain ⟨hkeeps, -⟩ := access_cases hs.valid haccess
    rcases hentered with hstored | ⟨call', hcall'⟩
    · exact .inl (hkeeps.stored_ne_none hstored)
    · by_cases heq : call' = call
      · subst heq
        refine (entered_access hs haccess hcall').imp_right fun henters => ?_
        refine ⟨call', ?_⟩
        rw [calls_setCall]
        exact henters
      · refine .inr ⟨call', ?_⟩
        rw [calls_setCall_ne heq, hkeeps.calls]
        exact hkeeps.genesisHash ▸ hcall'

/-- A packet that announces the peer starts such a handler. -/
theorem entered_of_announces {i : Input} (hs : s.Sound peer)
    (hannounces : s.Announces i) (h : s.step peer i = some t) :
    t.Entered peer := by
  rcases step_cases h with ⟨call, syncMsg, rfl, -, rfl⟩ |
    ⟨call, u, next, rfl, -, -⟩
  · refine .inr ⟨call, ?_⟩
    rw [calls_setCall]
    unfold start
    rcases hannounces with hrequest | ⟨hstatus, hgenesis⟩
    · rw [hrequest, if_neg (by decide), if_pos rfl]
      trivial
    · rw [if_pos hstatus, if_neg (by simp [hs.group])]
      exact hgenesis
  · exact hannounces.elim

/-! ## Runs -/

theorem IsInit.sound (h : s.IsInit peer) : s.Sound peer :=
  ⟨h.group, fun addr => h.valid peer.data addr, h.pushed.ge⟩

theorem IsInit.kept (h : s.IsInit peer) : s.Kept peer := by
  refine ⟨fun call addr syncMsg hcall => ?_, h.pushed⟩
  cases (h.quiet call).symm.trans hcall

/-- When the handlers have finished, a peer that has been heard of has an
entry. -/
theorem run_entered (hs : (sharedPeers peer).IsInit s) {is : List Input}
    (hrun : (sharedPeers peer).exec s is = some t) (hquiet : t.Quiet)
    {i : Input} (hi : i ∈ is) (hannounces : s.Announces i) :
    t.stored peer ≠ none := by
  obtain ⟨before, after, u, v, hbefore, hstep, hafter⟩ :=
    exec_of_mem hrun hi
  obtain ⟨hsound, hgenesis⟩ : u.Sound peer ∧
      u.config.genesisHash = s.config.genesisHash := by
    refine exec_preserves (I := fun u => u.Sound peer ∧
      u.config.genesisHash = s.config.genesisHash) ?_
      ⟨IsInit.sound hs, rfl⟩ hbefore
    rintro w j w' ⟨hw, hsame⟩ hw'
    refine ⟨step_sound hw hw', ?_⟩
    rcases step_cases hw' with ⟨call, syncMsg, -, -, rfl⟩ |
      ⟨call, x, next, -, haccess, rfl⟩
    · exact hsame
    · exact (access_cases hw.valid haccess).1.genesisHash.trans hsame
  have hhere : u.Announces i := by
    cases i with
    | receive call syncMsg =>
        unfold Announces at hannounces ⊢
        rw [hgenesis]
        exact hannounces
    | advance call => exact hannounces
  have hentered : t.Sound peer ∧ t.Entered peer := by
    refine exec_preserves (I := fun w => w.Sound peer ∧ w.Entered peer) ?_
      ⟨step_sound hsound hstep, entered_of_announces hsound hhere hstep⟩
      hafter
    exact fun w j w' hw hw' =>
      ⟨step_sound hw.1 hw', step_entered hw.1 hw.2 hw'⟩
  refine hentered.2.resolve_right ?_
  rintro ⟨call, hcall⟩
  rw [hquiet call] at hcall
  exact hcall

/-- In an interleaving without full queues, every handler about to push holds
the object of the table, and the queue there has all that has been pushed, if
and only if each `insertEmptyPeer` finds no entry.  That is also what decides,
once all handlers have finished, whether a request has been lost.  The entry
is there in any case. -/
theorem run_kept_iff (hs : (sharedPeers peer).IsInit s) {is : List Input}
    (hroom : (sharedPeers peer).AllSteps HasRoom s is) :
    ((sharedPeers peer).AllStates (Kept peer) s is ↔
      (sharedPeers peer).AllSteps (InTime peer) s is) ∧
    ∀ t, (sharedPeers peer).exec s is = some t → t.Quiet →
      (t.pushed ≤ t.requests peer ↔
        (sharedPeers peer).AllSteps (InTime peer) s is) ∧
      ((∃ i ∈ is, s.Announces i) → t.stored peer ≠ none) := by
  have hexact : (sharedPeers peer).AllStates (Kept peer) s is ↔
      (sharedPeers peer).AllSteps (InTime peer) s is :=
    allStates_iff_allSteps_of (A := fun _ => True) (I := Sound peer)
      (fun _ _ _ _ hs h => step_sound hs h)
      (fun _ _ _ _ hs hroom hkept h => step_kept_iff hs hroom hkept h)
      (fun _ _ => trivial) (IsInit.sound hs) hroom (IsInit.kept hs)
  refine ⟨hexact, fun t hrun hquiet => ⟨⟨fun hall => ?_, fun htime => ?_⟩,
    fun ⟨i, hi, hannounces⟩ => run_entered hs hrun hquiet hi hannounces⟩⟩
  · exact allSteps_of_not_lost (I := Sound peer)
      (fun _ _ _ hs h => step_sound hs h)
      (fun _ _ _ hs hlate h => lost_of_not_inTime hs hlate h)
      (fun _ _ _ hs hlost h => step_lost hs hlost h)
      (IsInit.sound hs) hrun (hquiet.not_lost hall)
  · exact ((hexact.mpr htime).last hrun).pushed.le

/-- A node of a group of three that has not heard of its peers. -/
def sample : SharedPeers where
  config := Sample.node.config
  peersStatus := ∅
  objects := []
  calls _ := .idle
  pushed := 0

theorem isInit_sample : (sharedPeers Sample.peer).IsInit sample := by
  refine ⟨fun _ => rfl, rfl, fun id addr h => ?_, rfl⟩
  cases h

/-- A request for the block at `number`. -/
def blockRequest (number : ℤ) : BlockSyncMessage where
  packetType := BlockSyncPacketType.blockRequestPacket
  number := number
  size := 1

/-- Two requests, one after the other. -/
def oneByOne : List Input :=
  [.receive 0 (blockRequest 1), .advance 0, .advance 0, .advance 0,
    .receive 0 (blockRequest 2), .advance 0, .advance 0]

theorem run_kept_iff_sample :
    ((sharedPeers Sample.peer).AllStates (Kept Sample.peer) sample
        oneByOne ↔
      (sharedPeers Sample.peer).AllSteps (InTime Sample.peer) sample
        oneByOne) ∧
    ∀ t, (sharedPeers Sample.peer).exec sample oneByOne = some t →
      t.Quiet →
      (t.pushed ≤ t.requests Sample.peer ↔
        (sharedPeers Sample.peer).AllSteps (InTime Sample.peer) sample
          oneByOne) ∧
      ((∃ i ∈ oneByOne, sample.Announces i) →
        t.stored Sample.peer ≠ none) :=
  run_kept_iff isInit_sample (by decide)

/-! ## A lost request -/

/-- The handlers of the same requests take turns. -/
def turns : List Input :=
  [.receive 0 (blockRequest 1), .receive 1 (blockRequest 2), .advance 0,
    .advance 1, .advance 0, .advance 1, .advance 0, .advance 1]

/-- Both find no entry; the second `insertEmptyPeer` keeps the entry of the
first one and hands out an orphan, and the request for block 2 is gone. -/
theorem twoInserts_lose_request :
    (sharedPeers Sample.peer).IsInit sample ∧
      (sharedPeers Sample.peer).AllSteps HasRoom sample turns ∧
      ∃ t, (sharedPeers Sample.peer).exec sample turns = some t ∧
        t.Quiet ∧
        t.pushed = {request (blockRequest 1), request (blockRequest 2)} ∧
        t.requests Sample.peer = {request (blockRequest 1)} ∧
        ¬ t.pushed ≤ t.requests Sample.peer := by
  refine ⟨isInit_sample, by decide, _, rfl, fun call => ?_, by decide,
    by decide, by decide⟩
  rcases call with _ | _ | call <;> rfl

end SharedPeers

end BcosSync
