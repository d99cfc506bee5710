import BcosSync.Network.Heights

/-!
# What the entries of a peer table rest on

In a network whose members hear of each other only, an entry of a peer table
comes from packets that its peer has sent.  A property of entries that only
needs what has been sent so far is kept by everything else that happens.
-/

namespace BcosSync

open MachineInt BlockSync SyncPeerStatus MessagePassing

/-- What a member has sent stays sent. -/
theorem Member.outbox_subset {P : BlockQueue} {κ : Type} {D : Deployment κ}
    {k : κ} {m t : Member P} {i : Member.Input κ}
    (hstep : Member.step D k m i = some t) :
    m.sync.outbox ⊆ t.sync.outbox := by
  rcases Member.step_sync hstep with hsame | ⟨i, hsync⟩ | ⟨rand, fuel, hsync⟩
  · exact hsame ▸ List.Subset.refl _
  · exact (step_grows hsync fun rand _ =>
      tryToRequestBlocks_onlyRequests rand _).subset
  · obtain ⟨sent, hout, -⟩ :=
      (pass_maintainBlockRequest hsync).answers_some
    exact hout ▸ List.subset_append_right _ _

namespace Deployment

variable {P : BlockQueue} {κ : Type} {D : Deployment κ}
  {N N' : κ → Member P} {k : κ}

/-- Everything that has been sent stays sent. -/
abbrev SendsMore (N N' : κ → Member P) : Prop :=
  ∀ k, (N k).sync.outbox ⊆ (N' k).sync.outbox

/-- A property of entries, `E N k id p` for the entry `p` with key `id` in the
table of `k`, that rests on what has been sent.  The own entry has it whatever
its status; a status and a request that arrive from a member keep it. -/
structure RestsOnSent (D : Deployment κ)
    (E : (κ → Member P) → κ → Bytes → PeerStatus → Prop) : Prop where
  mono : ∀ {N N' k id p}, SendsMore N N' → E N k id p → E N' k id p
  emptied : ∀ {N k id p q}, E N k id p → q.requests = 0 →
    E N k id { p with downloadRequests := q }
  own : ∀ {N k} (nodeID : PublicPtr) (status : BlockSyncStatus),
    nodeID.data = D.key k →
      (∀ p, E N k nodeID.data p → E N k nodeID.data (p.update status).2) ∧
        E N k nodeID.data (.new nodeID status)
  status : ∀ {N k src dst status},
    (dst, .status status) ∈ (N src).sync.outbox → ∀ addr,
      (∀ p, E N k (D.key src) p → E N k (D.key src) (p.update status).2) ∧
        E N k (D.key src) (.new ⟨addr, D.key src⟩ status)
  request : ∀ {N k src dst number size}, (∀ j, (N j).height + 8 < 2 ^ 63) →
    (dst, .request number size) ∈ (N src).sync.outbox → dst.data = D.key k →
      D.NamesReached N src (dst, .request number size) →
        ∀ addr, E N k (D.key src) (.newEmpty ⟨addr, D.key src⟩) ∧
          ∀ p capacity, E N k (D.key src) p → E N k (D.key src)
            { p with
              downloadRequests := p.downloadRequests.push capacity number
                (toSize (toInt64 size)) }

variable [DecidableEq κ]

theorem sendsMore_update {t : Member P} {i : Member.Input κ}
    (hstep : Member.step D k (N k) i = some t) :
    SendsMore N (Function.update N k t) :=
  goesOn_update
    (R := fun m m' : Member P => m.sync.outbox ⊆ m'.sync.outbox)
    (fun m => List.Subset.refl m.sync.outbox) (Member.outbox_subset hstep)

section Rule

variable {E : (κ → Member P) → κ → Bytes → PeerStatus → Prop}

/-- What the member that takes the step keeps of its entries. -/
theorem RestsOnSent.step (hE : D.RestsOnSent E) {t : Member P}
    {i : Member.Input κ} (hi : Genuine (k, i)) (hN : D.AllReached N)
    (hN' : D.AllReached (Function.update N k t))
    (hentries : (N k).sync.syncStatus.Forall (E N k))
    (hsent : ∀ d ∈ (D.members P).delivers k i, d.2 ∈ (N d.1).sync.outbox)
    (hstep : Member.step D k (N k) i = some t) :
    t.sync.syncStatus.Forall (E (Function.update N k t) k) := by
  have hmore := sendsMore_update hstep
  have hkeep : (N k).sync.syncStatus.Forall (E (Function.update N k t) k) :=
    hentries.mono fun id p hp => hE.mono hmore hp
  cases i with
  | node i =>
      simp only [Member.step] at hstep
      split_ifs at hstep
      obtain ⟨sync, hsync, rfl⟩ := Option.map_eq_some_iff.mp hstep
      rw [Member.commit_sync] at hsync
      obtain ⟨hupdate, hnew⟩ := hE.own (N := Function.update N k _) (k := k)
        (N k).sync.config.nodeID (currentStatus (N k).sync.config)
        (hN.knows k).nodeID
      exact step_forall hsync hi hkeep hupdate hnew
  | serve rand fuel =>
      obtain ⟨sync, hsync, rfl⟩ := Option.map_eq_some_iff.mp hstep
      exact (pass_maintainBlockRequest hsync).forall
        (fun _ _ _ hp hq => hE.emptied hp hq)
        (fun id p hp => ((hN.knows k).wellKept id p hp).1) hkeep hkeep
  | receive src addr m =>
      have hm : m ∈ (N src).sync.outbox := hsent (src, m) rfl
      have hm' := hmore src hm
      have hnamed := hN'.messages src m hm'
      have hlt : ∀ j, (Function.update N k t j).height + 8 < 2 ^ 63 :=
        fun j => (hN'.knows j).height_lt
      have hrange := (hN.messages src m hm).1
      simp only [Member.step] at hstep
      split_ifs at hstep with hdst
      obtain rfl := Option.some.inj hstep
      rw [receive_packet D.codec hrange] at hkeep hm' hnamed hlt ⊢
      refine receive_forall hkeep (fun msg hmsg => ?_)
        fun number size hrequest => ?_
      · obtain ⟨dst, packet⟩ := m
        obtain rfl : packet = .status msg := hmsg
        exact hE.status hm' addr
      · obtain ⟨dst, packet⟩ := m
        obtain rfl : packet = .request number size := hrequest
        obtain ⟨hempty, hpush⟩ := hE.request hlt hm' hdst hnamed addr
        exact ⟨hempty, fun p hp => hpush p _ hp⟩
  | append block =>
      obtain rfl := Option.some.inj hstep
      exact hkeep

/-- All entries of a network have a property that rests on what has been
sent. -/
theorem RestsOnSent.reachable (hE : D.RestsOnSent E)
    (h : (networkSystem D P).ReachableBy Genuine N) (k : κ) :
    (N k).sync.syncStatus.Forall (E N k) := by
  induction h generalizing k with
  | init hN =>
      intro id p hp
      rw [(hN k).isInit.starts.1] at hp
      cases hp
  | @step N N' m hreach hA hmove ih =>
      obtain ⟨j, i⟩ := m
      have hN' := reachable_allReached (.step hreach hA hmove)
      obtain ⟨hsent, t, hstep, rfl⟩ := network_step.mp hmove
      by_cases hjk : k = j
      · subst hjk
        rw [Function.update_self]
        exact hE.step hA (reachable_allReached hreach) hN' (ih k) hsent hstep
      · rw [Function.update_of_ne hjk]
        exact (ih k).mono fun id p hp => hE.mono (sendsMore_update hstep) hp

end Rule

end Deployment

end BcosSync
