import BcosSync.Download.Origin
import BcosSync.Network.Heights

/-!
# The ledgers agree

A chain has one block for each height.  If the members start on a chain, and
the consensus module appends blocks of it only, the ledger of every member is
that chain up to its height, and has no other block.

There are two reasons for it, each of them sufficient.  Members that hear of
each other only pass on blocks of their ledgers, so nobody ever executes
another block.  And a member that hears whatever its peers make up commits a
block only if the consensus module has found it to be one of the chain.
-/

namespace BcosSync

open BlockSync CommitSide MessagePassing

/-- A block for each height, which says its height. -/
structure Chain where
  block : ℤ → BlockData
  number_block : ∀ n, (block n).blockHeader.number = n

/-- The block is the one of its height. -/
def Chain.Has (chain : Chain) (block : BlockData) : Prop :=
  block = chain.block block.blockHeader.number

namespace Member

variable {P : BlockQueue} {κ : Type} {D : Deployment κ} {k : κ}
  {m t : Member P} {chain : Chain} {i : BlockSync.Input}

/-- The blocks of the ledger are those of the chain. -/
def Follows (chain : Chain) (m : Member P) : Prop :=
  ∀ n block, m.blockData n = .ok block → block = chain.block n

/-- The ledger is the chain up to the height of the node, and has no other
block. -/
structure HoldsChain (chain : Chain) (m : Member P) : Prop where
  upToHeight : ∀ n, 0 ≤ n → n ≤ m.height →
    m.blockData n = .ok (chain.block n)
  follows : m.Follows chain

theorem Follows.holdsChain (h : m.Follows chain)
    (hconfirms : m.Confirms m.height) : m.HoldsChain chain := by
  refine ⟨fun n hnonneg hle => ?_, h⟩
  obtain ⟨block, hblock⟩ := hconfirms.holds.exists_block hnonneg hle
  rw [hblock, h n block hblock]

theorem Follows.store (h : m.Follows chain) {number : ℤ} {block : BlockData}
    (hblock : block = chain.block number) :
    (m.store number block).Follows chain := by
  intro n b hb
  rw [blockData_store] at hb
  split_ifs at hb with hn
  · cases hb
    rw [hn]
    exact hblock
  · exact h n b hb

/-- A ledger that commits blocks of the chain follows it. -/
theorem Follows.commit (h : m.Follows chain)
    (hcommit : ∀ b l throws, i = .commitBlockAnswer b (.ok l) throws →
      chain.Has b.toBlockData) : (m.commit i).Follows chain := by
  unfold Member.commit
  split
  · next b l throws => exact h.store (hcommit b l throws rfl)
  · exact h

end Member

/-! ## Members that hear of each other only -/

namespace Deployment

variable {P : BlockQueue} {κ : Type} {D : Deployment κ} {chain : Chain}
  {N N' : κ → Member P} {k : κ} {t : Member P}

/-- Whatever is decoded from the data is a block of the chain. -/
def OfChain (D : Deployment κ) (chain : Chain) (data : Bytes) : Prop :=
  ∀ block, D.createBlock data = some block → chain.Has block

/-- What a block is encoded to is decoded as this block. -/
def RoundTrips (D : Deployment κ) : Prop :=
  ∀ block data, D.encode block = some data → D.createBlock data = some block

/-- The ledger of `k` follows the chain, and its node has nothing that is not
of the chain. -/
structure KnowsChain (D : Deployment κ) (chain : Chain) (N : κ → Member P)
    (k : κ) : Prop where
  ordered : (N k).sync.commitSide.Ordered
  holds : (N k).sync.HoldsOnly D.createBlock (D.OfChain chain)
  follows : (N k).Follows chain

/-- A packet of blocks has data of the chain. -/
def SaysChain (D : Deployment κ) (chain : Chain) (_ : κ → Member P) (_ : κ)
    (m : PublicPtr × Packet) : Prop :=
  ∀ n data, m.2 = .blocks n data → D.OfChain chain data

/-- The consensus module appends blocks of the chain. -/
def Appends (chain : Chain) : κ × Member.Input κ → Prop
  | (_, .append block) => chain.Has block
  | _ => True

theorem stable_chain (D : Deployment κ) (chain : Chain) :
    Stable (σ := Member P) (fun _ _ => True) (D.KnowsChain chain)
      (D.SaysChain chain) where
  refl _ := trivial
  knows N N' _ k hk h := by
    refine ⟨?_, ?_, ?_⟩
    · rw [hk]
      exact h.ordered
    · rw [hk]
      exact h.holds
    · rw [hk]
      exact h.follows
  messages _ _ _ _ _ h := h

theorem OfChain.has {b : Block}
    (h : Decodes D.createBlock (D.OfChain chain) b) :
    chain.Has b.toBlockData := by
  obtain ⟨data, hdata, hblock⟩ := h
  exact hdata _ hblock

/-- A block of the ledger is sent as data of the chain. -/
theorem ofChain_of_answers (hcodec : D.RoundTrips) {m : Member P}
    (h : m.Follows chain) {n : ℤ} {data : Bytes}
    (hanswers : (m.ledger D).Answers n (.blocks n data)) :
    D.OfChain chain data := by
  obtain ⟨block, _, hblock, hdata, heq⟩ := hanswers
  cases heq
  intro block' hblock'
  obtain rfl := Option.some.inj ((hcodec block data hdata).symm.trans hblock')
  have hchain := h n block hblock
  rw [Chain.Has, hchain, chain.number_block]

variable [DecidableEq κ]

/-- All members and packets are of the chain. -/
abbrev AllChain (D : Deployment κ) (chain : Chain) (N : κ → Member P) :
    Prop :=
  (D.members P).Sound (D.KnowsChain chain) (D.SaysChain chain) N

abbrev KeepsChain (D : Deployment κ) (chain : Chain) (N : κ → Member P)
    (k : κ) (t : Member P) : Prop :=
  (D.members P).Keeps (fun _ _ => True) (D.KnowsChain chain)
    (D.SaysChain chain) N k t

theorem keepsChain_of
    (hordered : t.sync.commitSide.Ordered)
    (hholds : t.sync.HoldsOnly D.createBlock (D.OfChain chain))
    (hfollows : t.Follows chain)
    (hsent : ∀ m ∈ t.sync.outbox, m ∈ (N k).sync.outbox ∨
      ∀ n data, m.2 = .blocks n data → D.OfChain chain data) :
    D.KeepsChain chain N k t := by
  have hself : Function.update N k t k = t := Function.update_self k t N
  refine ⟨trivial, ⟨?_, ?_, ?_⟩, hsent⟩
  · rwa [hself]
  · rwa [hself]
  · rwa [hself]

theorem keepsChain_node {i : BlockSync.Input} (hi : ¬ IsMessage i)
    (hk : D.KnowsChain chain N k)
    (hstep : Member.step D k (N k) (.node i) = some t) :
    D.KeepsChain chain N k t := by
  simp only [Member.step] at hstep
  split_ifs at hstep
  obtain ⟨sync, hsync, rfl⟩ := Option.map_eq_some_iff.mp hstep
  rw [Member.commit_sync] at hsync
  have hside := step_commitSide hk.ordered hsync
  have hcarries : CarriesOnly (D.OfChain chain) i := by
    rintro nodeID syncMsg rfl
    exact absurd trivial hi
  refine keepsChain_of (hside.ordered hk.ordered)
    (hk.holds.step hk.ordered hcarries hsync) ?_ fun m hm => ?_
  · refine hk.follows.commit ?_
    rintro b l throws rfl
    obtain ⟨hpending, -⟩ := answer_eq_some.mp hsync
    exact OfChain.has (hk.holds.side.pending _ hpending)
  · have hgrows := step_grows hsync fun rand _ =>
      tryToRequestBlocks_onlyRequests rand _
    refine (hgrows.mem hm).imp_right ?_
    rintro (⟨-, hstatus⟩ | ⟨number, size, hrequest⟩) n data hblocks
    · cases hstatus.symm.trans hblocks
    · cases hrequest.symm.trans hblocks

theorem keepsChain_serve (hcodec : D.RoundTrips) {rand : ℕ → ℕ} {fuel : ℕ}
    (hk : D.KnowsChain chain N k)
    (hstep : Member.step D k (N k) (.serve rand fuel) = some t) :
    D.KeepsChain chain N k t := by
  obtain ⟨sync, hsync, rfl⟩ := Option.map_eq_some_iff.mp hstep
  have hpass := pass_maintainBlockRequest hsync
  have hside : sync.commitSide = (N k).sync.commitSide :=
    (congrArg BlockSync.commitSide hpass.eq :)
  have hqueue : sync.downloadingQueue = (N k).sync.downloadingQueue :=
    (congrArg BlockSync.downloadingQueue hpass.eq :)
  refine keepsChain_of ?_ ⟨?_, ?_⟩ hk.follows fun m hm => ?_
  · exact hside ▸ hk.ordered
  · exact hqueue ▸ hk.holds.queue
  · exact hside ▸ hk.holds.side
  · obtain ⟨sent, hout, hsent⟩ := hpass.answers_some
    have hm : m ∈ sent ++ (N k).sync.outbox := hout ▸ hm
    refine (List.mem_append.mp hm).symm.imp_right fun hnew n data hblocks => ?_
    obtain ⟨n', hanswers⟩ := hsent m hnew
    obtain ⟨_, _, -, -, hpacket⟩ := id hanswers
    cases hblocks.symm.trans hpacket
    rw [hblocks] at hanswers
    exact ofChain_of_answers hcodec hk.follows hanswers

/-- The only data that a member takes in is that of packets of blocks. -/
theorem keepsChain_receive {src : κ} {addr : ℕ} {m : PublicPtr × Packet}
    (hk : D.KnowsChain chain N k) (hrange : m.2.InRange)
    (hm : D.SaysChain chain N src m)
    (hstep : Member.step D k (N k) (.receive src addr m) = some t) :
    D.KeepsChain chain N k t := by
  simp only [Member.step] at hstep
  split_ifs at hstep
  obtain rfl := Option.some.inj hstep
  rw [receive_packet D.codec hrange]
  have hsync : (N k).sync.step D.createBlock
      (.syncMessage ⟨addr, D.key src⟩ m.2.message) =
        some ((N k).sync.asyncNotifyBlockSyncMessage ⟨addr, D.key src⟩
          m.2.message) := rfl
  have hcarries : CarriesOnly (D.OfChain chain)
      (.syncMessage ⟨addr, D.key src⟩ m.2.message) := by
    intro nodeID syncMsg heq _ data hdata
    cases heq
    obtain ⟨dst, packet⟩ := m
    cases packet with
    | status msg => exact absurd hdata List.not_mem_nil
    | request number size => exact absurd hdata List.not_mem_nil
    | blocks n blockData =>
        obtain rfl : data = blockData := List.mem_singleton.mp hdata
        exact hm n data rfl
  have hside := step_commitSide hk.ordered hsync
  refine keepsChain_of (hside.ordered hk.ordered)
    (hk.holds.step hk.ordered hcarries hsync) hk.follows fun m' hm' => ?_
  exact .inl (outbox_syncMessage _ _ _ ▸ hm')

theorem keepsChain_append {block : BlockData} (hblock : chain.Has block)
    (hk : D.KnowsChain chain N k)
    (hstep : Member.step D k (N k) (.append block) = some t) :
    D.KeepsChain chain N k t := by
  obtain rfl := Option.some.inj hstep
  exact keepsChain_of hk.ordered hk.holds (hk.follows.store hblock)
    fun m hm => .inl hm

theorem allChain_init (h : (networkSystem D P).IsInit N)
    (hledgers : ∀ k, (N k).Follows chain) : D.AllChain chain N := by
  refine ⟨fun k => ⟨?_, ?_, hledgers k⟩, fun k m hm => ?_⟩
  · exact (h k).isInit.ordered
  · exact (h k).isInit.holdsOnly
  · have hout : (N k).sync.outbox = [] := (h k).isInit.starts.2.1
    have hm : m ∈ (N k).sync.outbox := hm
    rw [hout] at hm
    cases hm

/-- If the members hear of each other only, their ledgers are the chain up to
their heights, whatever the services answer and in whatever order packets
arrive. -/
theorem run_holdsChain_of_genuine (hcodec : D.RoundTrips)
    (hinit : (networkSystem D P).IsInit N)
    (hledgers : ∀ k, (N k).Follows chain) {is : List (κ × Member.Input κ)}
    (his : ∀ i ∈ is, Genuine i ∧ Appends chain i)
    (hrun : (networkSystem D P).exec N is = some N') (k : κ) :
    (N' k).HoldsChain chain := by
  have hreach : (networkSystem D P).ReachableBy
      (fun i => Genuine i ∧ Appends chain i) N := .init hinit
  have hall : D.AllReached N' :=
    reachable_allReached ((hreach.exec his hrun).mono fun _ hi => hi.1)
  have hchain : D.AllChain chain N' := by
    refine ReachableBy.exec_sound (stable_chain D chain) ?_ hreach
      (allChain_init hinit hledgers) his hrun
    intro N k i t hi hreach hN hsent hstep
    cases i with
    | node i => exact keepsChain_node hi.1 (hN.knows k) hstep
    | serve rand fuel => exact keepsChain_serve hcodec (hN.knows k) hstep
    | receive src addr m =>
        have hm := hsent (src, m) rfl
        have hreached := reachable_allReached (hreach.mono fun _ hi => hi.1)
        exact keepsChain_receive (hN.knows k)
          (hreached.messages src m hm).1 (hN.messages src m hm) hstep
    | append block => exact keepsChain_append hi.2 (hN.knows k) hstep
  exact (hchain.knows k).follows.holdsChain (hall.knows k).confirms

end Deployment

/-! ## Members that trust the check -/

namespace CommitSide

variable {G : Block → Prop} {c d : CommitSide} {i : Input}
  {throws : Option ThrowSite}

/-- The block of a callback that is left only after the check. -/
def clearedBlock : Callback → Option Block
  | .asyncStoreTransactions b => some b
  | .commitBlock b => some b
  | _ => none

/-- The blocks that are being stored or committed have property `G`. -/
def Cleared (G : Block → Prop) (c : CommitSide) : Prop :=
  ∀ cb ∈ c.pending, ∀ b ∈ clearedBlock cb, G b

namespace Cleared

theorem of_erase (h : c.Cleared G) {cb : Callback}
    (hd : d.pending = c.pending.erase cb) : d.Cleared G := by
  intro cb' hcb'
  rw [hd] at hcb'
  exact h cb' (List.mem_of_mem_erase hcb')

/-- The check is no callback of a block past the check. -/
theorem tryCommit (h : c.Cleared G) (htry : TryCommit throws c d) :
    d.Cleared G := by
  intro cb hcb
  rcases htry.mem_pending hcb with hcb | ⟨b, -, rfl, -⟩
  · exact h cb hcb
  · exact fun b hb => nomatch hb

theorem commitBlockState (h : c.Cleared G) {b : Block} (hb : G b) :
    (c.commitBlockState throws b).Cleared G := by
  intro cb hcb
  rcases mem_pending_of_call hcb with rfl | hcb
  · rintro _ ⟨⟩
    exact hb
  · exact h cb hcb

theorem commitBlock (h : c.Cleared G) {b : Block} (hb : G b) :
    (c.commitBlock throws b).Cleared G := by
  intro cb hcb
  rcases mem_pending_of_commitBlock hcb with rfl | rfl | hcb
  · rintro _ ⟨⟩
    exact hb
  · rintro _ ⟨⟩
    exact hb
  · exact h cb hcb

/-- A block comes past the check only by an answer of the check. -/
theorem step (h : c.Cleared G) (hstep : Step c i d)
    (hi : ∀ b throws, i = .asyncCheckBlockAnswer b (.ok true) throws → G b) :
    d.Cleared G := by
  cases hstep with
  | quiet => exact h
  | task htry => exact h.tryCommit htry
  | taskApply htry =>
      intro cb hcb
      rcases List.mem_cons.mp hcb with rfl | hcb
      · exact fun b hb => nomatch hb
      · exact h.tryCommit htry cb hcb
  | newBlock _ htry =>
      refine tryCommit ?_ htry
      exact h
  | executed _ _ htry =>
      refine tryCommit ?_ htry
      exact h.of_erase rfl
  | executeFailed => exact h.of_erase rfl
  | checked => exact (h.of_erase rfl).commitBlock (hi _ _ rfl)
  | checkFailed => exact h.of_erase rfl
  | stored hstoring =>
      exact (h.of_erase rfl).commitBlockState (h _ hstoring _ rfl)
  | storeFailed => exact h.of_erase rfl
  | committed _ _ htry =>
      refine tryCommit ?_ htry
      exact h.of_erase rfl
  | handlerThrew => exact h.of_erase rfl
  | commitFailed => exact h.of_erase rfl

end Cleared

end CommitSide

namespace Deployment

variable {P : BlockQueue} {κ : Type} {D : Deployment κ} {chain : Chain}

/-- The check of the consensus module answers true for blocks of the chain
only, and the module appends such blocks only. -/
def Vetted (chain : Chain) : κ × Member.Input κ → Prop
  | (_, .node (.asyncCheckBlockAnswer b (.ok true) _)) =>
      chain.Has b.toBlockData
  | (_, .append block) => chain.Has block
  | _ => True

/-- The blocks that a member commits, and those in its ledger, are of the
chain. -/
structure CommitsChain (chain : Chain) (m : Member P) : Prop where
  ordered : m.sync.commitSide.Ordered
  cleared : m.sync.commitSide.Cleared fun b => chain.Has b.toBlockData
  confirms : m.Confirms m.height
  follows : m.Follows chain

theorem Vetted.checked {k : κ} {i : BlockSync.Input}
    (h : Vetted chain (k, .node i)) (b : Block) (throws : Option ThrowSite)
    (hi : i = .asyncCheckBlockAnswer b (.ok true) throws) :
    chain.Has b.toBlockData := by
  subst hi
  exact h

theorem CommitsChain.step {k : κ} {m t : Member P} {i : Member.Input κ}
    (h : CommitsChain chain m) (hi : Vetted chain (k, i))
    (hstep : Member.step D k m i = some t) : CommitsChain chain t := by
  have ht := (Member.step_goesOn h.confirms hstep).confirms
  cases i with
  | node i =>
      simp only [Member.step] at hstep
      split_ifs at hstep
      obtain ⟨sync, hsync, rfl⟩ := Option.map_eq_some_iff.mp hstep
      rw [Member.commit_sync] at hsync
      have hside := step_commitSide h.ordered hsync
      refine ⟨hside.ordered h.ordered, h.cleared.step hside hi.checked, ht, ?_⟩
      refine h.follows.commit ?_
      rintro b l throws rfl
      obtain ⟨hpending, -⟩ := answer_eq_some.mp hsync
      exact h.cleared _ hpending b rfl
  | serve rand fuel =>
      obtain ⟨sync, hsync, rfl⟩ := Option.map_eq_some_iff.mp hstep
      have hside : sync.commitSide = m.sync.commitSide :=
        (congrArg BlockSync.commitSide (pass_maintainBlockRequest hsync).eq :)
      exact ⟨hside ▸ h.ordered, hside ▸ h.cleared, ht, h.follows⟩
  | receive src addr packet =>
      simp only [Member.step] at hstep
      split_ifs at hstep
      obtain rfl := Option.some.inj hstep
      rw [notifyData_eq] at ht ⊢
      revert ht
      cases received D.codec none (packet.2.encode D.codec) with
      | none => exact fun _ => h
      | some syncMsg =>
          intro ht
          have hsync : m.sync.step D.createBlock
              (.syncMessage ⟨addr, D.key src⟩ syncMsg) =
                some (m.sync.asyncNotifyBlockSyncMessage ⟨addr, D.key src⟩
                  syncMsg) := rfl
          have hside := step_commitSide h.ordered hsync
          exact ⟨hside.ordered h.ordered,
            h.cleared.step hside (fun _ _ heq => by cases heq), ht,
              h.follows⟩
  | append block =>
      obtain rfl := Option.some.inj hstep
      exact ⟨h.ordered, h.cleared, ht, h.follows.store hi⟩

/-- If the check is right, the ledgers of the members are the chain up to
their heights, whatever else they are told: messages may be made up and sent
in anybody's name. -/
theorem run_holdsChain_of_vetted [DecidableEq κ] {N N' : κ → Member P}
    (hinit : (networkSystem D P).IsInit N)
    (hledgers : ∀ k, (N k).Follows chain) {is : List (κ × Member.Input κ)}
    (his : ∀ i ∈ is, Vetted chain i)
    (hrun : (networkSystem D P).exec N is = some N') (k : κ) :
    (N' k).HoldsChain chain := by
  have hcommits : ∀ k, CommitsChain chain (N' k) := by
    refine TransitionSystem.ReachableBy.exec_invariant
      (I := fun N : κ → Member P => ∀ k, CommitsChain chain (N k)) ?_
      (.init hinit) ?_ his hrun
    · rintro N ⟨k, i⟩ N' hi - hN hmove j
      obtain ⟨-, t, ht, rfl⟩ := network_step.mp hmove
      by_cases hj : j = k
      · subst hj
        rw [Function.update_self]
        exact (hN j).step hi ht
      · rw [Function.update_of_ne hj]
        exact hN j
    · intro k
      have hside := (hinit k).isInit.commitSide_eq
      refine ⟨(hinit k).isInit.ordered, ?_, (hinit k).confirms, hledgers k⟩
      rw [hside]
      exact fun _ hcb => absurd hcb List.not_mem_nil
  exact (hcommits k).follows.holdsChain (hcommits k).confirms

end Deployment

/-! ## A block that is fetched, and one that is forged -/

namespace Sample

/-- Blocks without transactions. -/
def chain : Chain where
  block := emptyBlock
  number_block _ := rfl

theorem roundTrips_pair : pair.RoundTrips := by
  intro block data h
  have h : encodeBlock block = some data := h
  unfold encodeBlock at h
  dsimp only at h
  split_ifs at h with hdecoded
  obtain rfl := Option.some.inj h
  exact hdecoded

theorem follows_members (k : Bool) : (members k).Follows chain := by
  have hmember : ∀ nodeID number, (member nodeID number).Follows chain := by
    intro nodeID number n block hblock
    dsimp only [member] at hblock
    split_ifs at hblock
    exact (Except.ok.inj hblock).symm
  cases k
  · exact hmember nodeID 0
  · exact hmember peer 2

/-- After the exchange, the first member gets block 1 and commits it. -/
def fetch : List (Bool × Member.Input Bool) :=
  exchange ++
    [(true, .serve (fun _ => 0) 2),
      (false, .receive true peer.addr (nodeID, .blocks 1 [1, 0])),
      (false, .node task),
      (false, .node (executed (block 0 1 0))),
      (false, .node (checked (block 0 1 0) true)),
      (false, .node (.commitBlockAnswer (block 0 1 0) (.ok (ledgerConfig 1))
        none))]

/-- Somebody makes up a status and a block 1 with a transaction.  The check
finds it out, and the block of the chain is committed. -/
def forgery : List (Bool × Member.Input Bool) :=
  [(false, .node (status peer 2)),
    (false, .node (blocks [[1, 1]])),
    (false, .node task),
    (false, .node (executed (block 0 1 1))),
    (false, .node (checked (block 0 1 1) false)),
    (false, .node (blocks [[1, 0]])),
    (false, .node task),
    (false, .node (executed (block 1 1 0))),
    (false, .node (checked (block 1 1 0) true)),
    (false, .node (.commitBlockAnswer (block 1 1 0) (.ok (ledgerConfig 1))
      none))]

theorem exec_height (is : List (Bool × Member.Input Bool)) (n : ℤ)
    (hrun : (((networkSystem pair sortedBlockQueue).exec members is).any
      fun N => (N false).height = n) = true) :
    ∃ N, (networkSystem pair sortedBlockQueue).exec members is = some N ∧
      (N false).height = n := by
  obtain ⟨N, hN, hheight⟩ := (Option.any_eq_true _ _).mp hrun
  exact ⟨N, hN, of_decide_eq_true hheight⟩

end Sample

namespace Deployment

theorem run_holdsChain_of_genuine_sample :
    ∃ N, (networkSystem Sample.pair sortedBlockQueue).exec Sample.members
        Sample.fetch = some N ∧
      (N false).height = 1 ∧ (N false).HoldsChain Sample.chain := by
  obtain ⟨N, hrun, hheight⟩ := Sample.exec_height Sample.fetch 1
    (by decide)
  have his : ∀ i ∈ Sample.fetch, Genuine i ∧ Appends Sample.chain i := by
    simp [Sample.fetch, Sample.exchange, Genuine, Appends, IsMessage,
      Sample.task, Sample.executed, Sample.checked]
  exact ⟨N, hrun, hheight, run_holdsChain_of_genuine Sample.roundTrips_pair
    Sample.isInit_members Sample.follows_members his hrun false⟩

theorem run_holdsChain_of_vetted_sample :
    ∃ N, (networkSystem Sample.pair sortedBlockQueue).exec Sample.members
        Sample.forgery = some N ∧
      (N false).height = 1 ∧ (N false).HoldsChain Sample.chain := by
  obtain ⟨N, hrun, hheight⟩ := Sample.exec_height Sample.forgery 1
    (by decide)
  have his : ∀ i ∈ Sample.forgery, Vetted Sample.chain i := by
    simp [Sample.forgery, Vetted, Sample.status, Sample.blocks, Sample.task,
      Sample.executed, Sample.checked, Chain.Has, Sample.chain,
      Sample.emptyBlock, Sample.block]
  exact ⟨N, hrun, hheight, run_holdsChain_of_vetted Sample.isInit_members
    Sample.follows_members his hrun false⟩

end Deployment

end BcosSync
