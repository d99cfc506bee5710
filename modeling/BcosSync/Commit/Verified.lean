import BcosSync.Commit.Effects
import BcosSync.Commit.Refinement

/-!
# Nothing unverified is committed

The invariant says what the trace must already contain for a block to be where
it is: a block in the commit queue has been executed to its own header hash,
and each outstanding callback owes its place to the stages before it.
-/

namespace BcosSync

open BlockSync

/-- The block was executed and answered with its own header hash, and the
`later` stages came after that. -/
def Verified (b : Block) (later : List Event) (trace : List Event) : Prop :=
  ∃ header : BlockHeader, b.hash = header.hash ∧
    List.Sublist
      (later ++ [.executeBlockAnswer b (.ok header), .executeBlock b]) trace

namespace Verified

variable {b : Block} {later trace : List Event}

theorem mono {trace' : List Event} (h : Verified b later trace)
    (hsuffix : trace <:+ trace') : Verified b later trace' := by
  obtain ⟨header, hhash, hsub⟩ := h
  exact ⟨header, hhash, hsub.trans hsuffix.sublist⟩

theorem log (h : Verified b later trace) (e : Event) :
    Verified b later (e :: trace) :=
  h.mono (List.suffix_cons e trace)

/-- The event just logged is the next stage. -/
theorem cons (h : Verified b later trace) (e : Event) :
    Verified b (e :: later) (e :: trace) := by
  obtain ⟨header, hhash, hsub⟩ := h
  exact ⟨header, hhash, hsub.cons_cons e⟩

theorem mem (h : Verified b later trace) {e : Event} (he : e ∈ later) :
    e ∈ trace := by
  obtain ⟨header, -, hsub⟩ := h
  exact hsub.subset (List.mem_append_left _ he)

theorem of_executed {header : BlockHeader} (hhash : b.hash = header.hash)
    (h : .executeBlock b ∈ trace) :
    Verified b [] (.executeBlockAnswer b (.ok header) :: trace) :=
  ⟨header, hhash, (List.singleton_sublist.mpr h).cons_cons _⟩

end Verified

/-- The block was sent to the check while it was the next block. -/
abbrev sentToCheck (b : Block) : List Event := [.asyncCheckBlock b b.number]

/-- The block was sent to the check while it was the next block, and the check
answered true. -/
abbrev passedCheck (b : Block) : List Event :=
  [.asyncCheckBlockAnswer b (.ok true), .asyncCheckBlock b b.number]

/-- What must have happened before an event. -/
def Justified : Event → List Event → Prop
  | .asyncStoreTransactions b _ _, before => Verified b (passedCheck b) before
  | .commitBlock b, before =>
      Verified b (passedCheck b) before ∧
        (0 < b.transactionsSize →
          .asyncStoreTransactionsAnswer b none ∈ before)
  | _, _ => True

/-- What must have happened for a callback to be outstanding. -/
def Owed (trace : List Event) : Callback → Prop
  | .executeBlock b => .executeBlock b ∈ trace
  | .asyncCheckBlock b => Verified b (sentToCheck b) trace
  | .asyncStoreTransactions b => Verified b (passedCheck b) trace
  | .commitBlock b => Verified b (passedCheck b) trace

theorem Owed.log {trace : List Event} {cb : Callback} (h : Owed trace cb)
    (e : Event) : Owed (e :: trace) cb := by
  cases cb with
  | executeBlock b => exact List.mem_cons_of_mem e h
  | asyncCheckBlock b => exact Verified.log h e
  | asyncStoreTransactions b => exact Verified.log h e
  | commitBlock b => exact Verified.log h e

namespace CommitSide

variable {c d : CommitSide} {i : Input} {throws : Option ThrowSite}

/-- Every block is where it is for a reason, and so is every event. -/
structure Provenance (c : CommitSide) : Prop where
  waiting : ∀ b ∈ c.commitQueue, Verified b [] c.trace
  owed : ∀ cb ∈ c.pending, Owed c.trace cb
  justified : ∀ e before, e :: before <:+ c.trace → Justified e before

namespace Provenance

theorem setExecutedBlock (h : c.Provenance) (n : ℤ) :
    (c.setExecutedBlock n).Provenance :=
  ⟨h.waiting, h.owed, h.justified⟩

theorem log (h : c.Provenance) {e : Event} (he : Justified e c.trace) :
    (c.log e).Provenance := by
  refine ⟨fun b hb => (h.waiting b hb).log e,
    fun cb hcb => (h.owed cb hcb).log e, ?_⟩
  intro e' before hsuffix
  rcases List.suffix_cons_iff.mp hsuffix with heq | hsuffix
  · cases heq
    exact he
  · exact h.justified e' before hsuffix

theorem await (h : c.Provenance) {cb : Callback} (hcb : Owed c.trace cb) :
    (c.await cb).Provenance := by
  refine ⟨h.waiting, ?_, h.justified⟩
  intro cb' hmem
  rcases List.mem_cons.mp hmem with rfl | hmem
  · exact hcb
  · exact h.owed cb' hmem

theorem receive (h : c.Provenance) (cb : Callback) {e : Event}
    (he : Justified e c.trace) : (c.receive cb e).Provenance := by
  have hlog := h.log he
  refine ⟨hlog.waiting, ?_, hlog.justified⟩
  intro cb' hmem
  exact hlog.owed cb' (List.mem_of_mem_erase hmem)

theorem restrict (h : c.Provenance) {queue : Multiset Block}
    (hle : queue ≤ c.commitQueue) :
    ({ c with commitQueue := queue } : CommitSide).Provenance :=
  ⟨fun b hb => h.waiting b (Multiset.mem_of_le hle hb), h.owed, h.justified⟩

theorem enqueue (h : c.Provenance) {b : Block} (hb : Verified b [] c.trace) :
    (c.enqueue b).Provenance := by
  refine ⟨?_, h.owed, h.justified⟩
  intro a ha
  rcases Multiset.mem_cons.mp ha with rfl | ha
  · exact hb
  · exact h.waiting a ha

theorem call (h : c.Provenance) {site : ThrowSite} {b : Block} {e : Event}
    {cb : Callback} (he : Justified e c.trace) (hcb : Owed (e :: c.trace) cb) :
    (c.call throws site b e cb).Provenance := by
  unfold CommitSide.call
  split_ifs
  · exact (h.log he).log True.intro
  · exact (h.log he).await hcb

theorem advance (h : c.Provenance) (l : LedgerConfig) :
    (c.advance l).Provenance := by
  have hreset : (c.reset l).Provenance := ⟨h.waiting, h.owed, h.justified⟩
  exact hreset.restrict (Multiset.filter_le _ _)

theorem tryCommit (h : c.Provenance) (htry : TryCommit throws c d) :
    d.Provenance := by
  cases htry with
  | idle => exact h.restrict (Multiset.filter_le _ _)
  | @check b rest hwaiting hnumber =>
      have hle : b ::ₘ rest ≤ c.commitQueue :=
        hwaiting ▸ Multiset.filter_le _ _
      have hb : Verified b [] c.trace :=
        h.waiting b (Multiset.mem_of_le hle (Multiset.mem_cons_self b rest))
      rw [← hnumber]
      exact (h.restrict ((Multiset.le_cons_self rest b).trans hle)).call
        True.intro (hb.cons _)

theorem commitBlockState (h : c.Provenance) {b : Block}
    (hb : Verified b (passedCheck b) c.trace)
    (hstored : 0 < b.transactionsSize →
      .asyncStoreTransactionsAnswer b none ∈ c.trace) :
    (c.commitBlockState throws b).Provenance :=
  h.call ⟨hb, hstored⟩ (hb.log _)

theorem storeTransactions (h : c.Provenance) {b : Block}
    (hb : Verified b (passedCheck b) c.trace) :
    (c.storeTransactions throws b).Provenance :=
  h.call hb (hb.log _)

theorem commitBlock (h : c.Provenance) {b : Block}
    (hb : Verified b (passedCheck b) c.trace) :
    (c.commitBlock throws b).Provenance := by
  unfold CommitSide.commitBlock
  split_ifs with hempty
  · exact h.commitBlockState hb (by omega)
  · refine (h.commitBlockState hb (by omega)).storeTransactions ?_
    exact hb.mono trace_suffix_call
  · exact h.log True.intro
  · exact h.storeTransactions hb

theorem step (h : c.Provenance) (hstep : Step c i d) : d.Provenance := by
  cases hstep with
  | quiet => exact h
  | task htry => exact h.tryCommit htry
  | taskApply htry =>
      exact ((h.tryCommit htry).log (by trivial)).await List.mem_cons_self
  | newBlock _ htry => exact (h.advance _).tryCommit htry
  | executed hexecuting hhash htry =>
      have hexecute := h.owed _ hexecuting
      refine Provenance.tryCommit ?_ htry
      exact ((h.receive _ (by trivial)).setExecutedBlock _).enqueue
        (.of_executed hhash hexecute)
  | executeFailed => exact (h.receive _ (by trivial)).setExecutedBlock _
  | checked hchecking =>
      have hsent := h.owed _ hchecking
      exact (h.receive _ (by trivial)).commitBlock (Verified.cons hsent _)
  | checkFailed => exact (h.receive _ (by trivial)).setExecutedBlock _
  | stored hstoring =>
      have hpassed := h.owed _ hstoring
      exact (h.receive _ (by trivial)).commitBlockState
        (Verified.log hpassed _) fun _ => List.mem_cons_self
  | storeFailed => exact (h.receive _ (by trivial)).setExecutedBlock _
  | committed _ _ htry =>
      refine Provenance.tryCommit ?_ htry
      exact ((h.receive _ (by trivial)).log (by trivial)).advance _
  | handlerThrew =>
      exact ((h.receive _ (by trivial)).log (by trivial)).log (by trivial)
  | commitFailed => exact (h.receive _ (by trivial)).setExecutedBlock _

/-- What is being committed has been sent to the check. -/
theorem mem_trace_of_committing (h : c.Provenance) {b : Block}
    (hb : c.Committing b) : .asyncCheckBlock b b.number ∈ c.trace := by
  rcases hb with hb | hb | hb
  · exact Verified.mem (h.owed _ hb) List.mem_cons_self
  · exact Verified.mem (h.owed _ hb)
      (List.mem_cons_of_mem _ List.mem_cons_self)
  · exact Verified.mem (h.owed _ hb)
      (List.mem_cons_of_mem _ List.mem_cons_self)

end Provenance

end CommitSide

namespace BlockSync

open CommitSide

variable {P : BlockQueue}

theorem reachable_provenance {createBlock : BlockFactory} {s : BlockSync P}
    (hs : (nodeSystem P createBlock).Reachable s) :
    s.commitSide.Provenance := by
  have hprovenance : s.CommitInvariant Provenance :=
    reachable_invariant
      (fun _ => ⟨by simp, by simp, by simp⟩)
      (fun _ _ _ _ _ h hstep => h.step hstep) hs
  exact hprovenance.2

/-- Whenever the node stores or commits a block, the block was executed to its
own header hash, then sent to the check as the next block, then passed the
check; and a block with transactions is committed only once they are
stored. -/
theorem reachable_commit_verified {createBlock : BlockFactory}
    {s : BlockSync P} (hs : (nodeSystem P createBlock).Reachable s)
    (b : Block) (before : List Event) :
    (∀ txsData txsHashList,
      .asyncStoreTransactions b txsData txsHashList :: before <:+ s.trace →
        Verified b (passedCheck b) before) ∧
    (.commitBlock b :: before <:+ s.trace →
      Verified b (passedCheck b) before ∧
        (0 < b.transactionsSize →
          .asyncStoreTransactionsAnswer b none ∈ before)) := by
  have hjustified := (reachable_provenance hs).justified
  constructor
  · intro txsData txsHashList hsuffix
    exact hjustified _ _ hsuffix
  · intro hsuffix
    exact hjustified _ _ hsuffix

theorem reachable_commit_verified_sample :
    ∃ s before, Sample.system.Reachable s ∧
      .commitBlock (Sample.block 0 1 1) :: before <:+ s.trace ∧
      Verified (Sample.block 0 1 1) (passedCheck (Sample.block 0 1 1))
        before ∧
      .asyncStoreTransactionsAnswer (Sample.block 0 1 1) none ∈ before := by
  obtain ⟨s, hrun, htrace⟩ : ∃ s, Sample.system.exec Sample.node
      [Sample.status Sample.peer 2, Sample.blocks [[1, 1]], Sample.task,
        Sample.executed (Sample.block 0 1 1),
        Sample.checked (Sample.block 0 1 1) true,
        .asyncStoreTransactionsAnswer (Sample.block 0 1 1) none none] =
          some s ∧ s.trace.head? = some (.commitBlock (Sample.block 0 1 1)) :=
    ⟨_, rfl, rfl⟩
  obtain ⟨before, hbefore⟩ := List.head?_eq_some_iff.mp htrace
  have hs : Sample.system.Reachable s := .of_exec Sample.isInit_node hrun
  have hsuffix : .commitBlock (Sample.block 0 1 1) :: before <:+ s.trace :=
    hbefore ▸ List.suffix_rfl
  obtain ⟨hverified, hstored⟩ :=
    (reachable_commit_verified hs (Sample.block 0 1 1) before).2 hsuffix
  exact ⟨s, before, hs, hsuffix, hverified, hstored (by decide)⟩

end BlockSync

end BcosSync
