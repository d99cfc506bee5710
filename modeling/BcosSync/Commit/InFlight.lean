import BcosSync.Commit.Identity
import BcosSync.Commit.Verified

/-!
# One commit per height in flight

The only guard of `tryToCommitBlockToLedger` is that the lowest waiting block
has the next height.  While a block of that height is being committed, a
second block of the height that waits in the commit queue passes the guard
too.  The module says that this is the only way in which two commits of one
height come about.
-/

namespace BcosSync

open BlockSync TransitionSystem

namespace CommitSide

variable {c d : CommitSide} {i : Input} {throws : Option ThrowSite}

/-- The step hands `b` to the check. -/
def HandsOver (c d : CommitSide) (b : Block) : Prop :=
  c.checkedBlocks.count b < d.checkedBlocks.count b

/-- No other block of the height of a block that is handed to the check is
being committed. -/
def OneAtATime (c d : CommitSide) : Prop :=
  ∀ b, HandsOver c d b →
    ∀ a, d.Committing a → a.number = b.number → a = b

/-- No waiting block of the next height has a height that is being
committed. -/
def Uncrowded (c : CommitSide) : Prop :=
  ∀ b ∈ c.unexpired, b.number = c.nextBlock →
    ∀ a, c.Committing a → a.number ≠ b.number

/-- No block waits and is being committed at the same time. -/
def Separate (c : CommitSide) : Prop :=
  ∀ b ∈ c.commitQueue, ¬ c.Committing b

/-! ## What a commit trigger hands over -/

theorem checkedBlocks_call {site : ThrowSite} {a : Block} {n : ℤ}
    {cb : Callback} :
    (c.call throws site a (.asyncCheckBlock a n) cb).checkedBlocks =
      a ::ₘ c.checkedBlocks := by
  unfold call
  split_ifs <;> rfl

/-- A check that is called adds at most its own callback. -/
theorem committing_call {a b : Block} {site : ThrowSite} {e : Event} :
    (c.call throws site b e (.asyncCheckBlock b)).Committing a →
      a = b ∨ c.Committing a := by
  rintro (h | h | h) <;> rcases mem_pending_of_call h with hcb | h
  · cases hcb
    exact .inl rfl
  · exact .inr (.inl h)
  · cases hcb
  · exact .inr (.inr (.inl h))
  · cases hcb
  · exact .inr (.inr (.inr h))

theorem committing_call_of {a b : Block} {site : ThrowSite} {e : Event}
    {cb : Callback} (h : c.Committing a) :
    (c.call throws site b e cb).Committing a := by
  unfold call
  split_ifs
  · exact h
  · exact h.mono fun _ => List.mem_cons_of_mem _

theorem TryCommit.oneAtATime_iff (h : TryCommit throws c d)
    (hseparate : c.Separate) : OneAtATime c d ↔ c.Uncrowded := by
  cases h with
  | idle hno =>
      refine iff_of_true (fun b hb => ?_) fun b hb hnumber => ?_
      · exact absurd hb (lt_irrefl _)
      · exact absurd hnumber (hno b hb)
  | @check b rest hwaiting hnumber =>
      have hb : b ∈ c.unexpired := hwaiting ▸ Multiset.mem_cons_self b rest
      have hhands : ∀ a, HandsOver c (({ c with commitQueue := rest }
          : CommitSide).call throws .asyncCheckBlock b
            (.asyncCheckBlock b c.nextBlock) (.asyncCheckBlock b)) a ↔
          a = b := by
        intro a
        rw [HandsOver, checkedBlocks_call, Multiset.count_cons]
        change c.checkedBlocks.count a < c.checkedBlocks.count a + _ ↔ _
        split_ifs with hab <;> simp [hab]
      unfold OneAtATime
      simp only [hhands, forall_eq]
      constructor
      · intro hone a ha hanumber e he heq
        have heb : e = b :=
          hone e (committing_call_of (c := { c with commitQueue := rest }) he)
            (heq.trans (hanumber.trans hnumber.symm))
        subst heb
        exact hseparate e (mem_of_mem_unexpired hb).1 he
      · intro huncrowded a ha hanumber
        rcases committing_call ha with rfl | ha
        · rfl
        · exact absurd hanumber (huncrowded b hb hnumber a ha)

/-! ## Steps and their triggers -/

theorem Step.tryCommit_of_trigger {c' : CommitSide} (h : Step c i d)
    (hi : ∀ rand, i ≠ .downloadTask rand) (htrigger : c.trigger i = some c') :
    TryCommit (throwSite i) c' d := by
  cases h with
  | quiet hquiet =>
      cases i with
      | downloadTask rand => exact absurd rfl (hi rand)
      | notifyNewBlock l =>
          have hle : l.blockNumber ≤ c.blockNumber := hquiet
          simp [trigger, not_lt.mpr hle] at htrigger
      | executeBlockAnswer => exact hquiet.elim
      | asyncCheckBlockAnswer => exact hquiet.elim
      | asyncStoreTransactionsAnswer => exact hquiet.elim
      | commitBlockAnswer => exact hquiet.elim
      | _ => cases htrigger
  | @task rand => exact absurd rfl (hi rand)
  | @taskApply rand => exact absurd rfl (hi rand)
  | newBlock hlt htry =>
      simp only [trigger, if_pos hlt, Option.some.injEq] at htrigger
      exact htrigger ▸ htry
  | executed _ hhash htry =>
      simp only [trigger, if_pos hhash, Option.some.injEq] at htrigger
      exact htrigger ▸ htry
  | @executeFailed b a throws _ hhash =>
      cases a with
      | error e => cases htrigger
      | ok header => simp [trigger, hhash header rfl] at htrigger
  | checked => cases htrigger
  | checkFailed => cases htrigger
  | stored => cases htrigger
  | storeFailed => cases htrigger
  | committed _ hthrows htry =>
      simp only [trigger, if_neg hthrows, Option.some.injEq] at htrigger
      exact htrigger ▸ htry
  | handlerThrew => simp [trigger] at htrigger
  | commitFailed => cases htrigger

theorem checkedBlocks_of_issued {b : Block} {site : ThrowSite} {e : Event}
    {cb : Callback} (he : checkedBlock e = none) :
    (c.call throws site b e cb).checkedBlocks = c.checkedBlocks := by
  unfold call
  split_ifs
  · simp only [checkedBlocks, log, List.filterMap_cons_none he,
      List.filterMap_cons_none (f := checkedBlock) (a := .exception b site)
        rfl]
  · simp only [checkedBlocks, log, await, List.filterMap_cons_none he]

theorem checkedBlocks_commitBlock {b : Block} :
    (c.commitBlock throws b).checkedBlocks = c.checkedBlocks := by
  unfold commitBlock commitBlockState storeTransactions
  split_ifs
  · exact checkedBlocks_of_issued rfl
  · exact (checkedBlocks_of_issued rfl).trans (checkedBlocks_of_issued rfl)
  · rfl
  · exact checkedBlocks_of_issued rfl

theorem Step.checkedBlocks_eq (h : Step c i d) (hnone : c.trigger i = none) :
    d.checkedBlocks = c.checkedBlocks := by
  cases h with
  | quiet => rfl
  | task => cases hnone
  | taskApply => cases hnone
  | newBlock hlt => simp [trigger, hlt] at hnone
  | executed _ hhash => simp [trigger, hhash] at hnone
  | executeFailed => rfl
  | checked => exact checkedBlocks_commitBlock
  | checkFailed => rfl
  | stored => exact checkedBlocks_of_issued rfl
  | storeFailed => rfl
  | committed _ hthrows => simp [trigger, hthrows] at hnone
  | handlerThrew => rfl
  | commitFailed => rfl

/-- Up to the trigger nothing is checked and no commit begins. -/
theorem trigger_spec {c' : CommitSide} (h : c.trigger i = some c') :
    c'.checkedBlocks = c.checkedBlocks ∧
      ∀ a, c'.Committing a → c.Committing a := by
  unfold trigger at h
  split at h
  · cases h
    exact ⟨rfl, fun _ h => h⟩
  · split_ifs at h
    cases h
    exact ⟨rfl, fun _ h => h⟩
  · split_ifs at h
    cases h
    exact ⟨rfl, fun _ h => h.of_erase rfl⟩
  · split_ifs at h
    cases h
    exact ⟨rfl, fun _ h => h.of_erase rfl⟩
  · cases h

theorem Step.trigger_issued_le {c' : CommitSide} (h : Step c i d)
    (htrigger : c.trigger i = some c') : c'.issued ≤ c.issued := by
  unfold trigger at htrigger
  split at htrigger
  · cases htrigger
    exact le_rfl
  · split_ifs at htrigger
    cases htrigger
    exact issued_advance_le
  · split_ifs at htrigger with hhash
    cases htrigger
    rw [issued_enqueue, issued_setExecutedBlock]
    cases h with
    | quiet hquiet => exact hquiet.elim
    | executed hexecuting =>
        exact le_of_eq (issued_receive_executed hexecuting)
    | executeFailed _ hno => exact absurd hhash (hno _ rfl)
  · split_ifs at htrigger
    cases htrigger
    refine issued_advance_le.trans ?_
    rw [issued_log rfl]
    exact issued_receive_le rfl
  · cases htrigger

/-- A step hands over one block of a height at a time if and only if its
trigger finds no waiting block of a height that is being committed. -/
theorem Step.oneAtATime_iff (h : Step c i d)
    (hi : ∀ rand, i ≠ .downloadTask rand) (hnodup : c.issued.Nodup)
    (hchecked : ∀ a, c.Committing a → a ∈ c.checkedBlocks) :
    OneAtATime c d ↔ ∀ c', c.trigger i = some c' → c'.Uncrowded := by
  cases htrigger : c.trigger i with
  | none =>
      refine iff_of_true (fun b hb => ?_) (by simp)
      rw [HandsOver, h.checkedBlocks_eq htrigger] at hb
      exact absurd hb (lt_irrefl _)
  | some c' =>
      obtain ⟨hsame, hcommitting⟩ := trigger_spec htrigger
      have hseparate : c'.Separate := by
        intro b hb hbcommitting
        have hnodup' := Multiset.nodup_of_le (h.trigger_issued_le htrigger)
          hnodup
        have hdisjoint := (Multiset.nodup_add.mp hnodup').2.2
        refine Multiset.disjoint_left.mp hdisjoint
          (Multiset.mem_add.mpr (.inr hb)) ?_
        rw [hsame]
        exact hchecked b (hcommitting b hbcommitting)
      have hunfold : OneAtATime c d ↔ OneAtATime c' d := by
        simp only [OneAtATime, HandsOver, hsame]
      rw [hunfold, (h.tryCommit_of_trigger hi htrigger).oneAtATime_iff
        hseparate]
      simp

end CommitSide

namespace BlockSync

open CommitSide

variable {P : BlockQueue} {createBlock : BlockFactory}

/-- The commit side at which the input triggers a commit.  The download task
triggers one only if the node should sync. -/
def trigger (s : BlockSync P) : Input → Option CommitSide
  | .downloadTask _ => if s.shouldSyncing then some s.commitSide else none
  | i => s.commitSide.trigger i

theorem reachable_checked {s : BlockSync P}
    (hs : (nodeSystem P createBlock).Reachable s) {b : Block}
    (hb : s.commitSide.Committing b) : b ∈ s.commitSide.checkedBlocks :=
  mem_checkedBlocks.mpr
    ⟨_, (reachable_provenance hs).mem_trace_of_committing hb⟩

theorem downloadTask_oneAtATime_iff {s : BlockSync P} (rand : ℕ → ℕ → ℕ)
    (hordered : s.commitSide.Ordered) (hseparate : s.commitSide.Separate) :
    OneAtATime s.commitSide (s.downloadTask createBlock rand).commitSide ↔
      ∀ c, s.trigger (.downloadTask rand) = some c → c.Uncrowded := by
  rcases downloadTask_cases createBlock rand hordered with
    ⟨hsync, -, hsame⟩ | ⟨d, hsync, htry, htask⟩
  · rw [hsame]
    refine iff_of_true (fun b hb => absurd hb (lt_irrefl _)) ?_
    simp [trigger, hsync]
  · have hunfold : OneAtATime s.commitSide
        (s.downloadTask createBlock rand).commitSide ↔
          OneAtATime s.commitSide d := by
      rw [htask]
      cases s.appliedBlock createBlock with
      | none => exact Iff.rfl
      | some b =>
          have hchecked : ((d.log (.executeBlock b)).await
              (.executeBlock b)).checkedBlocks = d.checkedBlocks := rfl
          have hcommitting : ∀ a, ((d.log (.executeBlock b)).await
              (.executeBlock b)).Committing a ↔ d.Committing a := by
            intro a
            simp [CommitSide.Committing, CommitSide.await, CommitSide.log]
          simp only [OneAtATime, HandsOver, hchecked, hcommitting]
    rw [hunfold, htry.oneAtATime_iff hseparate]
    simp [trigger, hsync]

/-- In a run from `init` two blocks of one height are never being committed
together if and only if no commit is triggered while a block of the next
height waits and another one is being committed. -/
theorem run_oneAtATime_iff {s : BlockSync P} (hs : IsInit P s)
    (is : List Input) :
    (nodeSystem P createBlock).AllTransitions
        (fun s _ t => OneAtATime s.commitSide t.commitSide) s is ↔
      (nodeSystem P createBlock).AllSteps
        (fun s i => ∀ c, s.trigger i = some c → c.Uncrowded) s is := by
  refine allTransitions_iff (A := fun _ => True)
    (I := (nodeSystem P createBlock).Reachable) ?_ ?_ (fun _ _ => trivial)
    (.init hs)
  · exact fun s i t _ hs hstep => .step hs trivial hstep
  · intro s i t _ hs hstep
    obtain ⟨hordered, hidentified⟩ := reachable_identified hs
    by_cases htask : ∃ rand, i = .downloadTask rand
    · obtain ⟨rand, rfl⟩ := htask
      obtain rfl := Option.some.inj hstep
      refine downloadTask_oneAtATime_iff rand hordered ?_
      intro b hb hcommitting
      exact hidentified.not_mem_checkedBlocks hb
        (reachable_checked hs hcommitting)
    · have hi : ∀ rand, i ≠ .downloadTask rand :=
        fun rand heq => htask ⟨rand, heq⟩
      have htrigger : s.trigger i = s.commitSide.trigger i := by
        cases i with
        | downloadTask rand => exact absurd rfl (hi rand)
        | _ => rfl
      dsimp only
      rw [htrigger]
      exact (step_commitSide hordered hstep).oneAtATime_iff hi
        hidentified.nodup_issued fun _ => reachable_checked hs

/-- Two copies of block 1 arrive, two download tasks pass them to the
scheduler, and both executions succeed: the second copy is handed to the check
while the first one is being checked. -/
theorem duplicate_committed_together :
    ∃ s t, Sample.system.Reachable s ∧
      Sample.system.step s (Sample.executed (Sample.block 1 1 1)) = some t ∧
      ¬ OneAtATime s.commitSide t.commitSide := by
  obtain ⟨s, t, hrun, hstep, hbefore, hafter, hcommitting⟩ :
      ∃ s t, Sample.system.exec Sample.node
        [Sample.status Sample.peer 2, Sample.blocks [[1, 1], [1, 1]],
          Sample.task, Sample.task,
          Sample.executed (Sample.block 0 1 1)] = some s ∧
        Sample.system.step s
          (Sample.executed (Sample.block 1 1 1)) = some t ∧
        s.commitSide.checkedBlocks.count (Sample.block 1 1 1) = 0 ∧
        t.commitSide.checkedBlocks.count (Sample.block 1 1 1) = 1 ∧
        t.Committing (Sample.block 0 1 1) :=
    ⟨_, _, rfl, rfl, rfl, rfl, by decide +kernel⟩
  refine ⟨s, t, .of_exec Sample.isInit_node hrun, hstep, fun hone => ?_⟩
  have hsame := hone (Sample.block 1 1 1) (by unfold HandsOver; omega)
    (Sample.block 0 1 1) hcommitting rfl
  exact absurd hsame (by decide)

theorem run_oneAtATime_sample :
    Sample.system.AllTransitions
        (fun s _ t => OneAtATime s.commitSide t.commitSide) Sample.node
        [Sample.status Sample.peer 2, Sample.blocks [[1, 1]], Sample.task,
          Sample.executed (Sample.block 0 1 1)] ↔
      Sample.system.AllSteps
        (fun s i => ∀ c, s.trigger i = some c → c.Uncrowded) Sample.node
        [Sample.status Sample.peer 2, Sample.blocks [[1, 1]], Sample.task,
          Sample.executed (Sample.block 0 1 1)] :=
  run_oneAtATime_iff Sample.isInit_node _

end BlockSync

end BcosSync
