import BcosSync.Config
import BcosSync.State.DownloadRequestQueue
import Mathlib.Data.List.AList
import Mathlib.Tactic.SplitIfs

/-!
# The peer table

`PeerStatus` and `SyncPeerStatus`: the status each peer last reported and the
requests it has pending.  The table is keyed by the key data of the node id.
-/

namespace BcosSync

structure PeerStatus where
  nodeId : PublicPtr
  number : ℤ
  hash : HashType
  genesisHash : HashType
  downloadRequests : DownloadRequestQueue

namespace PeerStatus

/-- The constructor with a status. -/
def new (nodeId : PublicPtr) (status : BlockSyncStatus) : PeerStatus where
  nodeId := nodeId
  number := status.number
  hash := status.hash
  genesisHash := status.genesisHash
  downloadRequests := DownloadRequestQueue.new

/-- The constructor without a status. -/
def newEmpty (nodeId : PublicPtr) : PeerStatus where
  nodeId := nodeId
  number := 0
  hash := HashType.zero
  genesisHash := HashType.zero
  downloadRequests := DownloadRequestQueue.new

/-- `update`: whether the status was taken over, and the entry afterwards. -/
def update (status : BlockSyncStatus) (p : PeerStatus) : Bool × PeerStatus :=
  if p.hash = status.hash ∧ status.number = p.number then (false, p)
  else if p.genesisHash ≠ HashType.zero ∧
      status.genesisHash ≠ p.genesisHash then (false, p)
  else
    (true,
      { p with
        number := status.number
        hash := status.hash
        genesisHash :=
          if p.genesisHash = HashType.zero then status.genesisHash
          else p.genesisHash })

end PeerStatus

/-- The peer table `m_peersStatus`. -/
abbrev SyncPeerStatus := AList fun _ : Bytes => PeerStatus

namespace SyncPeerStatus

def peerStatus (peer : PublicPtr) (t : SyncPeerStatus) : Option PeerStatus :=
  t.lookup peer.data

/-- `std::map::insert`: an existing entry is kept. -/
def insertNew (peer : PublicPtr) (status : PeerStatus) (t : SyncPeerStatus) :
    SyncPeerStatus :=
  match t.lookup peer.data with
  | some _ => t
  | none => t.insert peer.data status

def insertEmptyPeer (peer : PublicPtr) (t : SyncPeerStatus) : SyncPeerStatus :=
  insertNew peer (PeerStatus.newEmpty peer) t

def deletePeer (peer : PublicPtr) (t : SyncPeerStatus) : SyncPeerStatus :=
  t.erase peer.data

/-- `updateKnownMaxBlockInfo`. -/
def updateKnownMaxBlockInfo (status : BlockSyncStatus) (c : BlockSyncConfig) :
    BlockSyncConfig :=
  if status.genesisHash ≠ c.genesisHash then c
  else if status.number ≤ c.knownHighestNumber then c
  else
    (c.setKnownHighestNumber status.number).setKnownLatestHash status.hash

/-- `updatePeerStatus`: the table and the config afterwards. -/
def updatePeerStatus (peer : PublicPtr) (status : BlockSyncStatus)
    (t : SyncPeerStatus) (c : BlockSyncConfig) :
    SyncPeerStatus × BlockSyncConfig :=
  if status.genesisHash ≠ c.genesisHash then (t, c)
  else
    match t.lookup peer.data with
    | some entry =>
        let (updated, entry) := entry.update status
        (t.replace peer.data entry,
          if updated then updateKnownMaxBlockInfo status c else c)
    | none =>
        (t.insert peer.data (PeerStatus.new peer status),
          updateKnownMaxBlockInfo status c)

/-- A status can change the highest known number and its hash in the config,
nothing else. -/
theorem updatePeerStatus_config (peer : PublicPtr) (status : BlockSyncStatus)
    (t : SyncPeerStatus) (c : BlockSyncConfig) :
    ∃ number hash, (updatePeerStatus peer status t c).2 =
      { c with knownHighestNumber := number, knownLatestHash := hash } := by
  have hknown : ∃ number hash, updateKnownMaxBlockInfo status c =
      { c with knownHighestNumber := number, knownLatestHash := hash } := by
    unfold updateKnownMaxBlockInfo
    split_ifs
    · exact ⟨_, _, rfl⟩
    · exact ⟨_, _, rfl⟩
    · exact ⟨_, _, rfl⟩
  unfold updatePeerStatus
  split
  · exact ⟨_, _, rfl⟩
  · split
    · dsimp only
      split
      · exact hknown
      · exact ⟨_, _, rfl⟩
    · exact hknown

/-! ## Traversals -/

/-- The shuffle loop: `rand i` is the value `rand()` returns at index `i`. -/
def shuffleLoop (rand : ℕ → ℕ) : ℕ → Array Bytes → Array Bytes
  | 0, ids => ids
  | i + 1, ids =>
      shuffleLoop rand i (ids.swapIfInBounds (i + 1) (rand (i + 1) % (i + 2)))

def shuffle (rand : ℕ → ℕ) (ids : List Bytes) : List Bytes :=
  (shuffleLoop rand (ids.length - 1) ids.toArray).toList

/-- Call `f` on the entries of the listed peers until it returns `false`;
`f` also threads the variables its closure captures. -/
def visit {τ : Type} (f : PeerStatus → τ → Bool × τ) (t : SyncPeerStatus) :
    List Bytes → τ → τ
  | [], x => x
  | id :: ids, x =>
      match t.lookup id with
      | none => visit f t ids x
      | some peer =>
          match f peer x with
          | (true, y) => visit f t ids y
          | (false, y) => y

def foreachPeerRandom {τ : Type} (rand : ℕ → ℕ)
    (f : PeerStatus → τ → Bool × τ) (t : SyncPeerStatus) (x : τ) : τ :=
  visit f t (shuffle rand t.keys) x

theorem shuffleLoop_perm (rand : ℕ → ℕ) (i : ℕ) (ids : Array Bytes) :
    (shuffleLoop rand i ids).Perm ids := by
  induction i generalizing ids with
  | zero => exact .refl ids
  | succ i ih =>
      refine (ih _).trans ?_
      unfold Array.swapIfInBounds
      split_ifs
      · exact Array.swap_perm _ _
      · exact .refl ids
      · exact .refl ids

/-- The shuffle visits every peer of the table. -/
theorem mem_shuffle_keys {rand : ℕ → ℕ} {t : SyncPeerStatus} {id : Bytes} :
    id ∈ shuffle rand t.keys ↔ id ∈ t.keys :=
  ((shuffleLoop_perm rand _ _).toList).mem_iff

theorem nodup_shuffle_keys {rand : ℕ → ℕ} {t : SyncPeerStatus} :
    (shuffle rand t.keys).Nodup :=
  ((shuffleLoop_perm rand _ _).toList).nodup_iff.mpr t.keys_nodup

section Visit

variable {τ : Type} {f : PeerStatus → τ → Bool × τ} {t : SyncPeerStatus}

theorem visit_cons_of_none {id : Bytes} (h : t.lookup id = none)
    (ids : List Bytes) (x : τ) :
    visit f t (id :: ids) x = visit f t ids x := by
  rw [visit, h]

theorem visit_cons_of_true {id : Bytes} {p : PeerStatus} {x y : τ}
    (h : t.lookup id = some p) (hf : f p x = (true, y)) (ids : List Bytes) :
    visit f t (id :: ids) x = visit f t ids y := by
  simp only [visit, h, hf]

theorem visit_cons_of_false {id : Bytes} {p : PeerStatus} {x y : τ}
    (h : t.lookup id = some p) (hf : f p x = (false, y)) (ids : List Bytes) :
    visit f t (id :: ids) x = y := by
  simp only [visit, h, hf]

/-- What every call of `f` preserves, a traversal preserves. -/
theorem visit_preserves {G : τ → Prop} (hf : ∀ p x, G x → G (f p x).2)
    (ids : List Bytes) {x : τ} (hx : G x) : G (visit f t ids x) := by
  induction ids generalizing x with
  | nil => exact hx
  | cons id ids ih =>
      rw [visit]
      split
      · exact ih hx
      · next p _ =>
          have hp := hf p x hx
          split
          · next hcall =>
              rw [hcall] at hp
              exact ih hp
          · next hcall =>
              rw [hcall] at hp
              exact hp

/-- A traversal goes on as long as `f` returns `true`: what such calls keep
holds before each call, and what all calls lead to holds at the end. -/
theorem visit_induction {I G : τ → Prop}
    (hgo : ∀ id p x, t.lookup id = some p → I x → (f p x).1 = true →
      I (f p x).2)
    (hstop : ∀ id p x, t.lookup id = some p → I x → (f p x).1 = false →
      G (f p x).2)
    (hend : ∀ x, I x → G x) (ids : List Bytes) {x : τ} (hx : I x) :
    G (visit f t ids x) := by
  induction ids generalizing x with
  | nil => exact hend x hx
  | cons id ids ih =>
      rw [visit]
      split
      · exact ih hx
      · next p hp =>
          split
          · next y hcall =>
              have hy := hgo id p x hp hx (by rw [hcall])
              rw [hcall] at hy
              exact ih hy
          · next y hcall =>
              have hy := hstop id p x hp hx (by rw [hcall])
              rw [hcall] at hy
              exact hy

/-- If `f` passes over the peers without property `A`, a traversal on which
no peer has it changes nothing. -/
theorem visit_eq_of_skips {A : PeerStatus → Prop}
    (hskip : ∀ p x, ¬ A p → f p x = (true, x)) {ids : List Bytes}
    (hnone : ∀ id ∈ ids, ∀ p, t.lookup id = some p → ¬ A p) (x : τ) :
    visit f t ids x = x := by
  induction ids with
  | nil => rfl
  | cons id ids ih =>
      have hrest := ih fun id' hid' => hnone id' (List.mem_cons_of_mem _ hid')
      rw [visit]
      split
      · exact hrest
      · next p hp =>
          rw [hskip p x (hnone id List.mem_cons_self p hp)]
          exact hrest

/-- If a call on a peer with property `A` reaches `G` from `I`, and the
traversal meets such a peer, it reaches `G`. -/
theorem visit_reaches {A : PeerStatus → Prop} {I G : τ → Prop}
    (hskip : ∀ p x, ¬ A p → f p x = (true, x))
    (hreach : ∀ p x, A p → I x → G (f p x).2)
    (hkeep : ∀ p x, G x → G (f p x).2) {ids : List Bytes} {id : Bytes}
    {p : PeerStatus} (hid : id ∈ ids) (hp : t.lookup id = some p) (hA : A p)
    {x : τ} (hx : I x) : G (visit f t ids x) := by
  induction ids with
  | nil => cases hid
  | cons id' ids ih =>
      rw [visit]
      split
      · next hnone =>
          refine ih ?_
          rcases List.mem_cons.mp hid with rfl | hid
          · cases hnone.symm.trans hp
          · exact hid
      · next p' hp' =>
          by_cases hA' : A p'
          · have hG := hreach p' x hA' hx
            split
            · next hcall =>
                rw [hcall] at hG
                exact visit_preserves hkeep ids hG
            · next hcall =>
                rw [hcall] at hG
                exact hG
          · rw [hskip p' x hA']
            refine ih ?_
            rcases List.mem_cons.mp hid with rfl | hid
            · cases hp.symm.trans hp'
              exact absurd hA hA'
            · exact hid

end Visit

end SyncPeerStatus

end BcosSync
