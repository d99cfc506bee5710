import BcosSync.Download.Requests
import BcosSync.Support.RoundRobin

/-!
# How a range is cut into requests

`requestBlocks` cuts a range of heights into shards of one size, the last one
shorter perhaps, and asks for them one by one.  In a pass over the peers each
peer that has reached the highest number is asked for the next shard, and a
peer is asked once in a pass.  So the requests are dealt to these peers in
rounds, as many as a peer may get shards.
-/

namespace BcosSync

namespace BlockSync

open MachineInt

section

variable (c : BlockSyncConfig) (t : SyncPeerStatus) (from_ to_ : ℤ)

/-! ## Shards -/

/-- The first height of shard `i`. -/
def shardFrom (i : ℕ) : ℤ := from_ + 1 + i * c.maxRequestBlocks

/-- The number of heights in shard `i`. -/
def shardSize (i : ℕ) : ℤ :=
  min c.maxRequestBlocks (to_ - from_ - i * c.maxRequestBlocks)

/-- The last height of the first `k` shards. -/
def shardsTo (k : ℕ) : ℤ := min to_ (from_ + k * c.maxRequestBlocks)

/-- The number of shards of the range, rounded up. -/
def shardTotal : ℕ :=
  ((to_ - from_).toNat + c.maxRequestBlocks - 1) / c.maxRequestBlocks

/-- The first `k` shards of the range are not empty, follow one another
without overlap or gap, and cover the range up to `shardsTo k`. -/
structure TilesRange (k : ℕ) : Prop where
  nonempty : ∀ i < k, 0 < shardSize c from_ to_ i
  consecutive : ∀ i, i + 1 < k →
    shardFrom c from_ (i + 1) =
      shardFrom c from_ i + shardSize c from_ to_ i
  disjoint : ∀ i j, i < j → j < k →
    shardFrom c from_ i + shardSize c from_ to_ i ≤ shardFrom c from_ j
  covers : ∀ h, from_ + 1 ≤ h ∧ h ≤ shardsTo c from_ to_ k ↔
    ∃ i < k, shardFrom c from_ i ≤ h ∧
      h < shardFrom c from_ i + shardSize c from_ to_ i

variable {c t from_ to_}

/-- Without a shard size there are no shards. -/
theorem pos_of_lt_shardTotal {i : ℕ} (hi : i < shardTotal c from_ to_) :
    0 < c.maxRequestBlocks := by
  by_contra hzero
  rw [shardTotal, Nat.eq_zero_of_not_pos hzero, Nat.div_zero] at hi
  exact Nat.not_lt_zero i hi

/-- A shard of the range begins before the range ends. -/
theorem lt_of_lt_shardTotal (hlt : from_ < to_) {i : ℕ}
    (hi : i < shardTotal c from_ to_) :
    from_ + i * c.maxRequestBlocks < to_ := by
  have hpos := pos_of_lt_shardTotal hi
  have hle : (i + 1) * c.maxRequestBlocks ≤
      (to_ - from_).toNat + c.maxRequestBlocks - 1 :=
    (Nat.le_div_iff_mul_le hpos).mp hi
  rw [Nat.succ_mul] at hle
  have hcast : ((i * c.maxRequestBlocks : ℕ) : ℤ) =
      i * c.maxRequestBlocks := Int.natCast_mul _ _
  omega

theorem mul_succ_le_of_lt (m : ℕ) {i j : ℕ} (h : i < j) :
    (i : ℤ) * m + m ≤ j * m := by
  have hmul : (i + 1) * m ≤ j * m := Nat.mul_le_mul_right _ h
  rw [Nat.succ_mul] at hmul
  exact_mod_cast hmul

/-- The shard of a height is the quotient of its distance from the start. -/
theorem exists_shard {k : ℕ} {h : ℤ} (hpos : 0 < c.maxRequestBlocks)
    (hfirst : from_ + 1 ≤ h) (hlast : h ≤ shardsTo c from_ to_ k) :
    ∃ i < k, shardFrom c from_ i ≤ h ∧
      h < shardFrom c from_ i + shardSize c from_ to_ i := by
  have hpos' : (0 : ℤ) < c.maxRequestBlocks := by exact_mod_cast hpos
  obtain ⟨i, hi⟩ := Int.eq_ofNat_of_zero_le
    (Int.ediv_nonneg (b := c.maxRequestBlocks)
      (show 0 ≤ h - from_ - 1 by omega) hpos'.le)
  have hlow := Int.ediv_mul_le (h - from_ - 1) hpos'.ne'
  have hhigh := Int.lt_ediv_add_one_mul_self (h - from_ - 1) hpos'
  rw [hi] at hlow hhigh
  rw [Int.add_mul, Int.one_mul] at hhigh
  unfold shardFrom shardSize
  unfold shardsTo at hlast
  refine ⟨i, ?_, by omega, by omega⟩
  by_contra hik
  rcases Nat.eq_or_lt_of_le (not_lt.mp hik) with rfl | hki
  · omega
  · have hki' := mul_succ_le_of_lt c.maxRequestBlocks hki
    omega

theorem tilesRange (hlt : from_ < to_) {k : ℕ}
    (hk : k ≤ shardTotal c from_ to_) : TilesRange c from_ to_ k := by
  have hbegin : ∀ i < k, from_ + i * c.maxRequestBlocks < to_ :=
    fun i hi => lt_of_lt_shardTotal hlt (hi.trans_le hk)
  have hpos : ∀ i < k, 0 < c.maxRequestBlocks :=
    fun i hi => pos_of_lt_shardTotal (hi.trans_le hk)
  constructor
  · intro i hi
    have hi' := hbegin i hi
    have hpos' := hpos i hi
    unfold shardSize
    omega
  · intro i hi
    have hi' := hbegin (i + 1) hi
    have hsucc : ((i + 1 : ℕ) : ℤ) * c.maxRequestBlocks =
        i * c.maxRequestBlocks + c.maxRequestBlocks := by
      rw [Int.natCast_succ, Int.add_mul, Int.one_mul]
    unfold shardFrom shardSize
    omega
  · intro i j hij _
    have hij' := mul_succ_le_of_lt c.maxRequestBlocks hij
    unfold shardFrom shardSize
    omega
  · intro h
    constructor
    · rintro ⟨hfirst, hlast⟩
      have hk' : 0 < k := by
        by_contra hzero
        rw [shardsTo, Nat.eq_zero_of_not_pos hzero] at hlast
        omega
      exact exists_shard (hpos 0 hk') hfirst hlast
    · rintro ⟨i, hi, hfirst, hlast⟩
      have hik := mul_succ_le_of_lt c.maxRequestBlocks hi
      have hnonneg := Int.mul_nonneg (Int.natCast_nonneg i)
        (Int.natCast_nonneg c.maxRequestBlocks)
      unfold shardFrom at hfirst hlast
      unfold shardSize at hlast
      unfold shardsTo
      omega

end

section Requests

variable {c : BlockSyncConfig} {t : SyncPeerStatus} {from_ to_ : ℤ}
  {shardNumber : ℕ}

/-! ## The requests of a pass -/

/-- The requests for shard `i` and the ones after it, each to the next
peer. -/
def requestsFrom (c : BlockSyncConfig) (from_ to_ : ℤ) (i : ℕ)
    (peers : List (Bytes × PeerStatus)) : List (PublicPtr × Packet) :=
  peers.mapIdx fun j peer => (peer.2.nodeId,
    .request (shardFrom c from_ (i + j))
      (shardSize c from_ to_ (i + j)).toNat)

/-- The loop has asked the peers for the next shards, one each. -/
structure Sends (c : BlockSyncConfig) (from_ to_ : ℤ)
    (peers : List (Bytes × PeerStatus)) (l l' : RequestLoop) : Prop where
  shard_eq : l'.shard = l.shard + peers.length
  outbox_eq : l'.outbox =
    (requestsFrom c from_ to_ l.shard peers).reverse ++ l.outbox
  maxRequestNumber_eq : l'.maxRequestNumber =
    if peers = [] then l.maxRequestNumber
    else max l.maxRequestNumber (shardsTo c from_ to_ l'.shard)

theorem Sends.refl (l : RequestLoop) : Sends c from_ to_ [] l l :=
  ⟨rfl, rfl, rfl⟩

theorem Sends.single (id : Bytes) (p : PeerStatus) (l : RequestLoop) :
    Sends c from_ to_ [(id, p)] l
      { shard := l.shard + 1
        findPeer := true
        maxRequestNumber := max l.maxRequestNumber
          (shardsTo c from_ to_ (l.shard + 1))
        outbox := (p.nodeId, .request (shardFrom c from_ l.shard)
          (shardSize c from_ to_ l.shard).toNat) :: l.outbox } := by
  refine ⟨rfl, ?_, rfl⟩
  rw [requestsFrom, List.mapIdx_cons, List.mapIdx_nil]
  rfl

theorem shardsTo_mono {k k' : ℕ} (h : k ≤ k') :
    shardsTo c from_ to_ k ≤ shardsTo c from_ to_ k' := by
  have hmul : k * c.maxRequestBlocks ≤ k' * c.maxRequestBlocks :=
    Nat.mul_le_mul_right _ h
  have hcast : (k : ℤ) * c.maxRequestBlocks ≤ k' * c.maxRequestBlocks := by
    exact_mod_cast hmul
  unfold shardsTo
  omega

theorem Sends.trans {peers peers' : List (Bytes × PeerStatus)}
    {l₁ l₂ l₃ : RequestLoop} (h : Sends c from_ to_ peers l₁ l₂)
    (h' : Sends c from_ to_ peers' l₂ l₃) :
    Sends c from_ to_ (peers ++ peers') l₁ l₃ := by
  have hshard : l₃.shard = l₁.shard + (peers ++ peers').length := by
    rw [h'.shard_eq, h.shard_eq, List.length_append, Nat.add_assoc]
  refine ⟨hshard, ?_, ?_⟩
  · have hsplit : requestsFrom c from_ to_ l₁.shard (peers ++ peers') =
        requestsFrom c from_ to_ l₁.shard peers ++
          requestsFrom c from_ to_ l₂.shard peers' := by
      unfold requestsFrom
      rw [List.mapIdx_append, h.shard_eq]
      simp only [Nat.add_assoc, Nat.add_comm peers.length]
    rw [h'.outbox_eq, h.outbox_eq, hsplit, List.reverse_append,
      List.append_assoc]
  · have hle : shardsTo c from_ to_ l₂.shard ≤
        shardsTo c from_ to_ l₃.shard :=
      shardsTo_mono (by rw [h'.shard_eq]; exact Nat.le_add_right _ _)
    rw [h'.maxRequestNumber_eq, h.maxRequestNumber_eq]
    by_cases hpeers : peers = []
    · rw [hpeers, List.nil_append, if_pos rfl]
    · have happend : peers ++ peers' ≠ [] := by simp [hpeers]
      rw [if_neg hpeers, if_neg happend]
      by_cases hpeers' : peers' = []
      · rw [if_pos hpeers']
        have hsame : l₃.shard = l₂.shard := by
          rw [h'.shard_eq, hpeers', List.length_nil, Nat.add_zero]
        rw [hsame]
      · rw [if_neg hpeers', max_assoc, max_eq_right hle]

/-- The peers among `ids` that have reached the highest number, in this
order. -/
def topPeers (c : BlockSyncConfig) (t : SyncPeerStatus) (ids : List Bytes) :
    List (Bytes × PeerStatus) :=
  ids.filterMap fun id =>
    ((t.lookup id).filter fun p => c.knownHighestNumber ≤ p.number).map
      fun p => (id, p)

theorem topPeers_cons_of_skip {id : Bytes} (ids : List Bytes)
    (h : ∀ p, t.lookup id = some p → p.number < c.knownHighestNumber) :
    topPeers c t (id :: ids) = topPeers c t ids := by
  apply List.filterMap_cons_none
  rw [Option.map_eq_none_iff, Option.filter_eq_none_iff]
  intro p hp
  simpa using h p hp

theorem topPeers_cons_of_top {id : Bytes} {p : PeerStatus} (ids : List Bytes)
    (hlookup : t.lookup id = some p) (hp : c.knownHighestNumber ≤ p.number) :
    topPeers c t (id :: ids) = (id, p) :: topPeers c t ids := by
  apply List.filterMap_cons_some
  rw [hlookup, Option.filter_some_pos (by simpa using hp)]
  rfl

/-- What a request may assume: no number overflows for the first `shards`
shards, and the range ends at or below the highest number. -/
structure ShardsFit (c : BlockSyncConfig) (from_ to_ : ℤ) (shards : ℕ) :
    Prop where
  nonneg : 0 ≤ from_
  lt : from_ < to_
  le_known : to_ ≤ c.knownHighestNumber
  size_pos : 0 < c.maxRequestBlocks
  end_lt : from_ + shards * c.maxRequestBlocks < 2 ^ 63

/-- A peer at the top is asked for the next shard. -/
theorem requestShard_sends (id : Bytes) {shards : ℕ}
    (hfit : ShardsFit c from_ to_ shards)
    (htotal : shardNumber ≤ shardTotal c from_ to_) {l : RequestLoop}
    (hshards : l.shard < shards) (hleft : l.shard < shardNumber)
    {p : PeerStatus} (hp : c.knownHighestNumber ≤ p.number) :
    ∃ l', requestShard c from_ to_ shardNumber p l =
        (decide (l'.shard < shardNumber), l') ∧
      Sends c from_ to_ [(id, p)] l l' ∧ l'.findPeer = true := by
  obtain ⟨hnonneg, hlt, hto, hpos, hend⟩ := hfit
  have hbegin := lt_of_lt_shardTotal hlt (hleft.trans_le htotal)
  have hfirst : 0 ≤ (l.shard : ℤ) * c.maxRequestBlocks :=
    Int.mul_nonneg (Int.natCast_nonneg _) (Int.natCast_nonneg _)
  have hlast : (l.shard : ℤ) * c.maxRequestBlocks + c.maxRequestBlocks ≤
      shards * c.maxRequestBlocks := by
    have hmul : (l.shard + 1) * c.maxRequestBlocks ≤
        shards * c.maxRequestBlocks := Nat.mul_le_mul_right _ hshards
    rw [Nat.succ_mul] at hmul
    exact_mod_cast hmul
  have hfirst64 : toInt64 (from_ + 1 + l.shard * c.maxRequestBlocks) =
      shardFrom c from_ l.shard := by
    unfold shardFrom
    apply toInt64_of_range <;> omega
  have hlast64 : min (toInt64 (shardFrom c from_ l.shard +
      c.maxRequestBlocks - 1)) to_ = shardsTo c from_ to_ (l.shard + 1) := by
    unfold shardFrom shardsTo
    rw [toInt64_of_range (by omega) (by omega), Int.natCast_succ,
      Int.add_mul, Int.one_mul]
    omega
  have hsize : toSize (shardsTo c from_ to_ (l.shard + 1) -
      shardFrom c from_ l.shard + 1) =
        (shardSize c from_ to_ l.shard).toNat := by
    unfold shardFrom shardsTo shardSize toSize
    rw [Int.natCast_succ, Int.add_mul, Int.one_mul]
    omega
  have hskip : ¬ p.number < shardsTo c from_ to_ (l.shard + 1) := by
    unfold shardsTo
    omega
  unfold requestShard
  rw [if_neg (not_lt.mpr hp)]
  dsimp only
  rw [hfirst64, hlast64, if_neg hskip, hsize]
  exact ⟨_, rfl, .single id p l, rfl⟩

/-- A traversal asks the peers at the top for as many shards as are left. -/
theorem visit_sends {shards : ℕ} (hfit : ShardsFit c from_ to_ shards)
    (htotal : shardNumber ≤ shardTotal c from_ to_) (ids : List Bytes)
    {l : RequestLoop} (hshards : l.shard + (topPeers c t ids).length ≤ shards)
    (hleft : l.shard < shardNumber) :
    Sends c from_ to_ ((topPeers c t ids).take (shardNumber - l.shard)) l
        (SyncPeerStatus.visit (requestShard c from_ to_ shardNumber) t ids
          l) ∧
      (topPeers c t ids ≠ [] ∨ l.findPeer = true →
        (SyncPeerStatus.visit (requestShard c from_ to_ shardNumber) t ids
          l).findPeer = true) := by
  induction ids generalizing l with
  | nil =>
      refine ⟨?_, fun h => h.resolve_left (not_not_intro rfl)⟩
      have hnone : topPeers c t [] = [] := rfl
      rw [hnone, List.take_nil]
      exact .refl l
  | cons id ids ih =>
      cases hlookup : t.lookup id with
      | none =>
          rw [topPeers_cons_of_skip ids (by simp [hlookup])] at hshards ⊢
          rw [SyncPeerStatus.visit_cons_of_none hlookup]
          exact ih hshards hleft
      | some p =>
          by_cases hp : p.number < c.knownHighestNumber
          · rw [topPeers_cons_of_skip ids (by simp [hlookup, hp])]
              at hshards ⊢
            rw [SyncPeerStatus.visit_cons_of_true hlookup
              (requestShard_of_lt hp)]
            exact ih hshards hleft
          · rw [topPeers_cons_of_top ids hlookup (not_lt.mp hp)]
              at hshards ⊢
            rw [List.length_cons] at hshards
            obtain ⟨l', hcall, hsends, hfound⟩ := requestShard_sends id
              hfit htotal (by omega) hleft (not_lt.mp hp)
            have hshard : l'.shard = l.shard + 1 := hsends.shard_eq
            have hsub : shardNumber - l.shard =
                shardNumber - l'.shard + 1 := by omega
            rw [hsub, List.take_succ_cons]
            by_cases hmore : l'.shard < shardNumber
            · rw [decide_eq_true hmore] at hcall
              rw [SyncPeerStatus.visit_cons_of_true hlookup hcall]
              obtain ⟨hrest, hfound'⟩ := ih (l := l') (by omega) hmore
              exact ⟨hsends.trans hrest, fun _ => hfound' (.inr hfound)⟩
            · rw [decide_eq_false hmore] at hcall
              rw [SyncPeerStatus.visit_cons_of_false hlookup hcall]
              have hnone : shardNumber - l'.shard = 0 := by omega
              rw [hnone, List.take_zero]
              exact ⟨hsends, fun _ => hfound⟩

/-! ## The passes -/

/-- The peers at the top, in the order in which the pass with `r` more to come
visits them. -/
def passOrder (rand : ℕ → ℕ → ℕ) (c : BlockSyncConfig) (t : SyncPeerStatus)
    (r : ℕ) : List (Bytes × PeerStatus) :=
  topPeers c t (SyncPeerStatus.shuffle (rand r) t.keys)

theorem passOrder_perm (rand : ℕ → ℕ → ℕ) (r : ℕ) :
    (passOrder rand c t r).Perm (topPeers c t t.keys) := by
  have hperm : (SyncPeerStatus.shuffle (rand r) t.keys).Perm t.keys :=
    (SyncPeerStatus.shuffleLoop_perm (rand r) _ _).toList
  exact hperm.filterMap _

theorem mem_topPeers {ids : List Bytes} {peer : Bytes × PeerStatus}
    (h : peer ∈ topPeers c t ids) :
    t.lookup peer.1 = some peer.2 ∧
      c.knownHighestNumber ≤ peer.2.number := by
  obtain ⟨id, -, hid⟩ := List.mem_filterMap.mp h
  obtain ⟨p, hp, rfl⟩ := Option.map_eq_some_iff.mp hid
  obtain ⟨hlookup, htop⟩ := Option.filter_eq_some_iff.mp hp
  exact ⟨hlookup, by simpa using htop⟩

theorem map_fst_topPeers_sublist (ids : List Bytes) :
    ((topPeers c t ids).map Prod.fst).Sublist ids := by
  induction ids with
  | nil => exact .slnil
  | cons id ids ih =>
      by_cases htop : ∃ p, t.lookup id = some p ∧
          c.knownHighestNumber ≤ p.number
      · obtain ⟨p, hlookup, hp⟩ := htop
        rw [topPeers_cons_of_top ids hlookup hp]
        exact ih.cons_cons id
      · rw [topPeers_cons_of_skip ids]
        · exact ih.cons id
        · intro p hlookup
          by_contra hp
          exact htop ⟨p, hlookup, not_lt.mp hp⟩

theorem nodup_topPeers : ((topPeers c t t.keys).map Prod.fst).Nodup :=
  t.keys_nodup.sublist (map_fst_topPeers_sublist t.keys)

/-- One pass deals one shard to each peer at the top, as long as shards are
left; it looks for a peer afresh. -/
theorem pass_sends (rand : ℕ → ℕ → ℕ) (loops : ℕ) {shards : ℕ}
    (hfit : ShardsFit c from_ to_ shards)
    (htotal : shardNumber ≤ shardTotal c from_ to_) {l : RequestLoop}
    (hshards : l.shard + (passOrder rand c t loops).length ≤ shards)
    (hleft : l.shard < shardNumber) :
    ∃ l', SyncPeerStatus.foreachPeerRandom (rand loops)
        (requestShard c from_ to_ shardNumber) t
        { l with findPeer := false } = l' ∧
      Sends c from_ to_
        ((passOrder rand c t loops).take (shardNumber - l.shard)) l l' ∧
      (passOrder rand c t loops ≠ [] → l'.findPeer = true) := by
  obtain ⟨hsends, hfound⟩ := visit_sends hfit htotal
    (SyncPeerStatus.shuffle (rand loops) t.keys)
    (l := { l with findPeer := false }) hshards hleft
  exact ⟨_, rfl,
    ⟨hsends.shard_eq, hsends.outbox_eq, hsends.maxRequestNumber_eq⟩,
    fun hpeer => hfound (.inl hpeer)⟩

/-- The passes deal the shards that are left to the peers at the top. -/
theorem requestLoop_sends (rand : ℕ → ℕ → ℕ) {shards : ℕ}
    (hfit : ShardsFit c from_ to_ shards)
    (htotal : shardNumber ≤ shardTotal c from_ to_) (loops : ℕ)
    {l : RequestLoop}
    (hshards : l.shard + loops * (topPeers c t t.keys).length ≤ shards) :
    Sends c from_ to_
      (RoundRobin.deal (passOrder rand c t) loops (shardNumber - l.shard)) l
      (requestLoop rand c t from_ to_ shardNumber loops l) := by
  induction loops generalizing l with
  | zero => exact .refl l
  | succ loops ih =>
      rw [requestLoop]
      by_cases hleft : l.shard < shardNumber
      · have hlength : ∀ r, (passOrder rand c t r).length =
            (topPeers c t t.keys).length :=
          fun r => (passOrder_perm rand r).length_eq
        have hlength' := hlength loops
        rw [Nat.succ_mul] at hshards
        obtain ⟨l', hpass, hsends, hfound⟩ := pass_sends rand loops
          (t := t) hfit htotal (by omega) hleft
        have hshard := hsends.shard_eq
        rw [List.length_take] at hshard
        have hrest := ih (l := l') (by omega)
        rw [if_pos hleft, hpass, RoundRobin.deal]
        dsimp only
        by_cases hpeer : passOrder rand c t loops = []
        · -- nobody is at the top, in this pass or a later one
          have hnobody : ∀ r, passOrder rand c t r = [] := by
            intro r
            apply List.eq_nil_of_length_eq_zero
            rw [hlength, ← hlength', hpeer]
            rfl
          rw [RoundRobin.deal_nil hnobody] at hrest
          rw [hpeer, List.take_nil] at hsends ⊢
          rw [RoundRobin.deal_nil hnobody]
          split_ifs
          · exact hsends.trans hrest
          · exact hsends
        · have hsub : shardNumber - l.shard -
              (passOrder rand c t loops).length = shardNumber - l'.shard := by
            omega
          rw [if_pos (hfound hpeer), hsub]
          exact hsends.trans hrest
      · have hnone : shardNumber - l.shard = 0 := by omega
        rw [if_neg hleft, hnone, RoundRobin.deal_zero]
        exact .refl l

/-! ## The requests of one call -/

/-- The number of shards the code computes, in exact arithmetic. -/
theorem shardCount_eq (hlt : from_ < to_) (hto : to_ - from_ < 2 ^ 63)
    (hpos : 0 < c.maxRequestBlocks) (hsize : c.maxRequestBlocks < 2 ^ 63) :
    shardCount c from_ to_ = shardTotal c from_ to_ := by
  have hexact : toSize (to_ - from_ + c.maxRequestBlocks - 1) =
      (to_ - from_).toNat + c.maxRequestBlocks - 1 := by
    unfold toSize
    omega
  rw [shardCount, shardTotal, hexact]

end Requests

variable {P : BlockQueue}

/-- The loads of the peers: no peer has more requests than it may get shards,
and the loads of two peers at the top differ by one at most. -/
structure Balanced (c : BlockSyncConfig) (t : SyncPeerStatus)
    (peers : List (Bytes × PeerStatus)) : Prop where
  atTop : ∀ peer ∈ peers, t.lookup peer.1 = some peer.2 ∧
    c.knownHighestNumber ≤ peer.2.number
  load_le : ∀ id, (peers.map Prod.fst).count id ≤ c.maxShardPerPeer
  load_diff : ∀ a ∈ topPeers c t t.keys, ∀ b ∈ topPeers c t t.keys,
    (peers.map Prod.fst).count a.1 ≤ (peers.map Prod.fst).count b.1 + 1

/-- The requests that `requestBlocks` sends: as many shards as there are, and
as the peers at the top may get, dealt to these peers. -/
theorem requestBlocks_shards (rand : ℕ → ℕ → ℕ) {from_ to_ : ℤ}
    {s : BlockSync P} (hnonneg : 0 ≤ from_) (hlt : from_ < to_)
    (hto : to_ ≤ s.config.knownHighestNumber) (hto64 : to_ < 2 ^ 63)
    (hpos : 0 < s.config.maxRequestBlocks)
    (hrange : from_ + s.config.maxRequestBlocks *
      (s.config.maxShardPerPeer *
        (topPeers s.config s.syncStatus s.syncStatus.keys).length + 1) <
          2 ^ 63) :
    ∃ peers, peers.length = min (shardTotal s.config from_ to_)
        (s.config.maxShardPerPeer *
          (topPeers s.config s.syncStatus s.syncStatus.keys).length) ∧
      (requestBlocks rand from_ to_ s).outbox =
        (requestsFrom s.config from_ to_ 0 peers).reverse ++ s.outbox ∧
      (requestBlocks rand from_ to_ s).maxRequestNumber =
        (if peers = [] then s.maxRequestNumber
          else max s.maxRequestNumber
            (shardsTo s.config from_ to_ peers.length)) ∧
      TilesRange s.config from_ to_ peers.length ∧
      Balanced s.config s.syncStatus peers := by
  have hrange' : from_ + ((s.config.maxShardPerPeer *
      (topPeers s.config s.syncStatus s.syncStatus.keys).length : ℕ) : ℤ) *
        s.config.maxRequestBlocks + s.config.maxRequestBlocks < 2 ^ 63 := by
    rw [Int.mul_add, Int.mul_one, Int.mul_comm, ← Int.add_assoc] at hrange
    exact_mod_cast hrange
  have hproduct := Int.mul_nonneg (Int.natCast_nonneg
    (s.config.maxShardPerPeer *
      (topPeers s.config s.syncStatus s.syncStatus.keys).length))
    (Int.natCast_nonneg s.config.maxRequestBlocks)
  have hfit : ShardsFit s.config from_ to_ (s.config.maxShardPerPeer *
      (topPeers s.config s.syncStatus s.syncStatus.keys).length) :=
    ⟨hnonneg, hlt, hto, hpos, by omega⟩
  have hcount : shardCount s.config from_ to_ =
      shardTotal s.config from_ to_ :=
    shardCount_eq hlt (by omega) hpos (by omega)
  have hlength : ∀ r, (passOrder rand s.config s.syncStatus r).length =
      (topPeers s.config s.syncStatus s.syncStatus.keys).length :=
    fun r => (passOrder_perm rand r).length_eq
  have hkeys : ∀ r, ((passOrder rand s.config s.syncStatus r).map
      Prod.fst).Perm
        ((topPeers s.config s.syncStatus s.syncStatus.keys).map Prod.fst) :=
    fun r => (passOrder_perm rand r).map Prod.fst
  obtain ⟨hshard, hout, hmax⟩ := requestLoop_sends rand
    (t := s.syncStatus) hfit hcount.le s.config.maxShardPerPeer
    (l := ⟨0, false, s.maxRequestNumber, s.outbox⟩) (Nat.zero_add _).le
  have hdealt := RoundRobin.length_deal hlength s.config.maxShardPerPeer
    (shardCount s.config from_ to_ - 0)
  rw [hshard, Nat.zero_add] at hmax
  refine ⟨_, ?_, hout, hmax, ?_, ?_, ?_, ?_⟩
  · rw [hdealt, Nat.sub_zero, hcount]
  · apply tilesRange hlt
    rw [hdealt, Nat.sub_zero, hcount]
    exact Nat.min_le_left _ _
  · intro peer hpeer
    obtain ⟨r, hr⟩ := RoundRobin.mem_of_mem_deal hpeer
    exact mem_topPeers hr
  · intro id
    rw [RoundRobin.map_deal]
    apply RoundRobin.count_deal_le
    exact fun r => (hkeys r).nodup_iff.mpr nodup_topPeers
  · intro a ha b hb
    rw [RoundRobin.map_deal]
    obtain ⟨load, hload⟩ := RoundRobin.deal_balanced nodup_topPeers hkeys
      s.config.maxShardPerPeer (shardCount s.config from_ to_ - 0)
    have ha' := (hload a.1 (List.mem_map_of_mem ha)).2
    have hb' := (hload b.1 (List.mem_map_of_mem hb)).1
    exact ha'.trans (Nat.succ_le_succ hb')

/-- A node that has heard of height 20 from two peers. -/
def twoPeersNode : BlockSync sortedBlockQueue :=
  (Sample.node.asyncNotifyBlockSyncMessage Sample.peer
    { number := 20, hash := HashType.zero.1
      genesisHash := HashType.zero.1 }).asyncNotifyBlockSyncMessage
    Sample.otherPeer
    { number := 20, hash := HashType.zero.1
      genesisHash := HashType.zero.1 }

/-- Three shards go to the two peers. -/
theorem requestBlocks_shards_sample :
    ∃ peers : List (Bytes × PeerStatus), peers.length = 3 ∧
      (requestBlocks (fun _ _ => 0) 0 20 twoPeersNode).maxRequestNumber =
        20 ∧
      TilesRange twoPeersNode.config 0 20 3 ∧
      Balanced twoPeersNode.config twoPeersNode.syncStatus peers := by
  have htop : (topPeers twoPeersNode.config twoPeersNode.syncStatus
      twoPeersNode.syncStatus.keys).length = 2 := by decide +kernel
  obtain ⟨peers, hlength, -, hmax, htiles, hbalanced⟩ :=
    requestBlocks_shards (fun _ _ => 0) (s := twoPeersNode)
      (show (0 : ℤ) ≤ 0 by decide) (show (0 : ℤ) < 20 by decide)
      (by decide +kernel) (by decide) (by decide) (by rw [htop]; decide)
  have hthree : peers.length = 3 := by
    rw [hlength, htop]
    decide
  rw [hthree] at hmax htiles
  refine ⟨peers, hthree, ?_, htiles, hbalanced⟩
  rw [hmax, if_neg (by rintro rfl; cases hthree)]
  decide

end BlockSync

end BcosSync
