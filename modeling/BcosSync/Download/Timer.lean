import BcosSync.Commit.Effects
import BcosSync.Commit.Refinement
import Mathlib.Order.MinMax

/-!
# The way out of the downloading state

`tryToRequestBlocks` asks for no blocks while the node is downloading.  The
node leaves this state when the timer fires, or when all requested heights
have been executed.  `requestBlocks` enters it with the timer armed, the
execution of a block enters it with the timer as it is.  The module says
exactly which steps leave a node downloading with the timer disarmed and
requested heights missing.
-/

namespace BcosSync

open BlockSync TransitionSystem

/-! ## Heights -/

namespace CommitSide

variable {c d : CommitSide} {i : Input}

/-- The height, if any, to which the answer sets the executed height unless
the chain is already above it. -/
def executedTo (c : CommitSide) : Input → Option ℤ
  | .executeBlockAnswer b (.ok header) _ =>
      some (if b.hash = header.hash then b.number else c.blockNumber)
  | .executeBlockAnswer _ (.error _) _ => some c.blockNumber
  | .asyncCheckBlockAnswer _ (.ok true) _ => none
  | .asyncCheckBlockAnswer b _ _ => some (b.number - 1)
  | .asyncStoreTransactionsAnswer b (some _) _ => some (b.number - 1)
  | .commitBlockAnswer b (.error _) _ => some (b.number - 1)
  | _ => none

theorem executedTo_failedExecution {b : Block}
    {a : Except Error BlockHeader} {throws : Option ThrowSite}
    (h : ∀ header, a = .ok header → b.hash ≠ header.hash) :
    c.executedTo (.executeBlockAnswer b a throws) = some c.blockNumber := by
  cases a with
  | error e => rfl
  | ok header => rw [executedTo, if_neg (h header rfl)]

theorem executedTo_failedCheck {b : Block} {a : Except Error Bool}
    {throws : Option ThrowSite} (h : a ≠ .ok true) :
    c.executedTo (.asyncCheckBlockAnswer b a throws) =
      some (b.number - 1) := by
  match a with
  | .error _ => rfl
  | .ok false => rfl
  | .ok true => exact absurd rfl h

theorem executedTo_of_quiet (h : c.Quiet i) : c.executedTo i = none := by
  cases i <;> first | rfl | exact h.elim

/-- An input sets the executed height to `executedTo`, or the heights change
by a new ledger config at most. -/
theorem Step.executedTo_cases (h : Step c i d) :
    (∃ n, c.executedTo i = some n ∧
      d.toHeights = c.toHeights.setExecutedBlock n) ∨
    c.executedTo i = none ∧
      (d.toHeights = c.toHeights ∨
        ∃ l, d.toHeights = c.toHeights.reset l) := by
  cases h with
  | quiet hquiet => exact .inr ⟨executedTo_of_quiet hquiet, .inl rfl⟩
  | task htry => exact .inr ⟨rfl, .inl htry.toHeights_eq⟩
  | taskApply htry => exact .inr ⟨rfl, .inl htry.toHeights_eq⟩
  | newBlock _ htry => exact .inr ⟨rfl, .inr ⟨_, htry.toHeights_eq⟩⟩
  | executed _ hhash htry =>
      exact .inl ⟨_, congrArg some (if_pos hhash), htry.toHeights_eq⟩
  | executeFailed _ hfailed =>
      exact .inl ⟨_, executedTo_failedExecution hfailed, rfl⟩
  | checked => exact .inr ⟨rfl, .inl (by rw [commitBlock_toHeights]; rfl)⟩
  | checkFailed _ hfailed =>
      exact .inl ⟨_, executedTo_failedCheck hfailed, rfl⟩
  | stored =>
      exact .inr ⟨rfl, .inl (by rw [commitBlockState, call_toHeights]; rfl)⟩
  | storeFailed => exact .inl ⟨_, rfl, rfl⟩
  | committed _ _ htry => exact .inr ⟨rfl, .inr ⟨_, htry.toHeights_eq⟩⟩
  | handlerThrew => exact .inr ⟨rfl, .inl rfl⟩
  | commitFailed => exact .inl ⟨_, rfl, rfl⟩

theorem Step.executedBlock_of_executedTo {n : ℤ} (h : Step c i d)
    (hn : c.executedTo i = some n) :
    d.executedBlock = if c.blockNumber ≤ n then n else c.executedBlock := by
  rcases h.executedTo_cases with ⟨m, hm, hd⟩ | ⟨hnone, -⟩
  · obtain rfl := Option.some.inj (hm.symm.trans hn)
    rw [hd]
    rfl
  · cases hnone.symm.trans hn

theorem Step.executedBlock_mono (h : Step c i d)
    (hnone : c.executedTo i = none) : c.executedBlock ≤ d.executedBlock := by
  rcases h.executedTo_cases with ⟨n, hn, -⟩ | ⟨-, hd | ⟨l, hd⟩⟩
  · cases hnone.symm.trans hn
  · rw [hd]
  · rw [hd]
    unfold Heights.reset
    split_ifs
    · exact le_rfl
    · exact le_max_left _ _

end CommitSide

/-! ## The download side of a node -/

/-- What the requests of a node depend on besides the heights and the
peers. -/
structure DownloadSide where
  state : SyncState
  timerArmed : Bool
  maxRequestNumber : ℤ

namespace BlockSync

variable {P : BlockQueue} {createBlock : BlockFactory}

def downloadSide (s : BlockSync P) : DownloadSide where
  state := s.state
  timerArmed := s.timerArmed
  maxRequestNumber := s.maxRequestNumber

theorem downloadSide_tryToCommit (throws : Option ThrowSite)
    (s : BlockSync P) :
    (tryToCommitBlockToLedger throws s).downloadSide = s.downloadSide := by
  obtain ⟨q, pending, trace, heq⟩ := tryToCommit_eq throws s
  rw [heq]
  rfl

theorem downloadSide_commitBlockState (throws : Option ThrowSite) (b : Block)
    (s : BlockSync P) :
    (commitBlockState throws b s).downloadSide = s.downloadSide := by
  obtain ⟨pending, trace, heq⟩ := commitBlockState_eq throws b s
  rw [heq]
  rfl

theorem downloadSide_commitBlock (throws : Option ThrowSite) (b : Block)
    (s : BlockSync P) :
    (commitBlock throws b s).downloadSide = s.downloadSide := by
  obtain ⟨pending, trace, heq⟩ := commitBlock_eq throws b s
  rw [heq]
  rfl

theorem downloadSide_onNewBlock (l : LedgerConfig) (s : BlockSync P) :
    (s.onNewBlock l).downloadSide = s.downloadSide := by
  obtain ⟨out, hout⟩ := broadcastSyncStatus_eq (s.resetConfig l)
  rw [onNewBlock, hout]
  unfold resetConfig
  split_ifs <;> rfl

theorem downloadSide_onExecuteBlock (throws : Option ThrowSite) (b : Block)
    (a : Except Error BlockHeader) (s : BlockSync P) :
    (onExecuteBlock throws b a s).downloadSide = s.downloadSide := by
  unfold onExecuteBlock
  cases a with
  | error e => rfl
  | ok header =>
      dsimp only
      split_ifs
      · exact downloadSide_tryToCommit throws _
      · rfl

theorem downloadSide_onCheckBlock (throws : Option ThrowSite) (b : Block)
    (a : Except Error Bool) (s : BlockSync P) :
    (onCheckBlock throws b a s).downloadSide = s.downloadSide := by
  match a with
  | .error _ => rfl
  | .ok false => rfl
  | .ok true => exact downloadSide_commitBlock throws b _

theorem downloadSide_onStoreTransactions (throws : Option ThrowSite)
    (b : Block) (e : Option Error) (s : BlockSync P) :
    (onStoreTransactions throws b e s).downloadSide = s.downloadSide := by
  cases e with
  | none => exact downloadSide_commitBlockState throws b _
  | some e => rfl

theorem downloadSide_onCommitBlock (throws : Option ThrowSite) (b : Block)
    (a : Except Error LedgerConfig) (s : BlockSync P) :
    (onCommitBlock throws b a s).downloadSide = s.downloadSide := by
  cases a with
  | error e => rfl
  | ok l =>
      unfold onCommitBlock finalizeBlock
      dsimp only
      split_ifs
      · rfl
      · rw [downloadSide_tryToCommit, downloadSide_onNewBlock]
        rfl

theorem downloadSide_asyncNotifyNewBlock (l : LedgerConfig)
    (s : BlockSync P) :
    (s.asyncNotifyNewBlock l).downloadSide = s.downloadSide := by
  unfold asyncNotifyNewBlock
  split_ifs
  · rw [downloadSide_tryToCommit, downloadSide_onNewBlock]
  · rfl

/-- The input may enter or leave the downloading state. -/
def MovesState : Input → Prop
  | .downloadTask _ => True
  | .downloadTimeout => True
  | _ => False

theorem executedTo_of_moves {c : CommitSide} {i : Input}
    (h : MovesState i) : c.executedTo i = none := by
  cases i <;> first | rfl | exact h.elim

/-- Every other input leaves the download side alone. -/
theorem step_downloadSide {s t : BlockSync P} {i : Input}
    (hmoves : ¬ MovesState i) (hstep : s.step createBlock i = some t) :
    t.downloadSide = s.downloadSide := by
  cases i with
  | downloadTask rand => exact absurd trivial hmoves
  | downloadTimeout => exact absurd trivial hmoves
  | maintainPeersConnection =>
      obtain rfl := Option.some.inj hstep
      obtain ⟨table, config, out, heq, -⟩ := maintainPeersConnection_eq s
      rw [heq]
      rfl
  | syncMessage nodeID syncMsg =>
      obtain rfl := Option.some.inj hstep
      obtain ⟨table, config, buffer, heq, -⟩ :=
        syncMessage_eq nodeID syncMsg s
      rw [heq]
      rfl
  | notifyNewBlock l =>
      obtain rfl := Option.some.inj hstep
      exact downloadSide_asyncNotifyNewBlock l s
  | notifyCommittedIndex number =>
      obtain rfl := Option.some.inj hstep
      rfl
  | notifyConnectedNodes nodes =>
      obtain rfl := Option.some.inj hstep
      rfl
  | executeBlockAnswer b a throws =>
      obtain ⟨-, rfl⟩ := answer_eq_some.mp hstep
      exact downloadSide_onExecuteBlock throws b a _
  | asyncCheckBlockAnswer b a throws =>
      obtain ⟨-, rfl⟩ := answer_eq_some.mp hstep
      exact downloadSide_onCheckBlock throws b a _
  | asyncStoreTransactionsAnswer b e throws =>
      obtain ⟨-, rfl⟩ := answer_eq_some.mp hstep
      exact downloadSide_onStoreTransactions throws b e _
  | commitBlockAnswer b a throws =>
      obtain ⟨-, rfl⟩ := answer_eq_some.mp hstep
      exact downloadSide_onCommitBlock throws b a _

/-! ## Stuck nodes -/

/-- Every height the node has asked for has been executed. -/
def Fetched (s : BlockSync P) : Prop :=
  s.maxRequestNumber ≤ max s.config.blockNumber s.config.executedBlock

instance (s : BlockSync P) : Decidable s.Fetched :=
  inferInstanceAs (Decidable (_ ≤ _))

/-- The timer is disarmed although a height the node has asked for is
missing. -/
def Neglected (s : BlockSync P) : Prop :=
  s.timerArmed = false ∧ ¬ s.Fetched

/-- A node that is downloading, with nothing to end this. -/
def Stuck (s : BlockSync P) : Prop :=
  s.isSyncing = true ∧ s.Neglected

theorem fetched_iff {s : BlockSync P} :
    s.Fetched ↔ s.maxRequestNumber ≤ s.config.blockNumber ∨
      s.maxRequestNumber ≤ s.config.executedBlock :=
  le_max_iff

theorem fetched_iff_of_ordered {s : BlockSync P}
    (hordered : s.commitSide.Ordered) :
    s.Fetched ↔ s.maxRequestNumber ≤ s.config.executedBlock := by
  have hle : s.config.blockNumber ≤ s.config.executedBlock :=
    hordered.blockNumber_le
  rw [Fetched, max_eq_right hle]

theorem neglected_congr {s t : BlockSync P}
    (hside : t.downloadSide = s.downloadSide)
    (hconfig : t.config = s.config) : t.Neglected ↔ s.Neglected := by
  have htimer : t.timerArmed = s.timerArmed :=
    congrArg DownloadSide.timerArmed hside
  have hmax : t.maxRequestNumber = s.maxRequestNumber :=
    congrArg DownloadSide.maxRequestNumber hside
  rw [Neglected, Neglected, Fetched, Fetched, htimer, hmax, hconfig]

theorem stuck_congr {s t : BlockSync P}
    (hside : t.downloadSide = s.downloadSide)
    (hconfig : t.config = s.config) : t.Stuck ↔ s.Stuck := by
  have hstate : t.state = s.state := congrArg DownloadSide.state hside
  rw [Stuck, Stuck, neglected_congr hside hconfig, isSyncing, isSyncing,
    hstate]

theorem not_stuck_of_idle {s : BlockSync P} (h : s.state = .idle) :
    ¬ s.Stuck := by
  rintro ⟨hsyncing, -⟩
  simp [isSyncing, h] at hsyncing

theorem not_stuck_of_armed {s : BlockSync P} (h : s.timerArmed = true) :
    ¬ s.Stuck := by
  rintro ⟨-, hdisarmed, -⟩
  exact Bool.false_ne_true (hdisarmed.symm.trans h)

/-- In a stuck state `tryToRequestBlocks` returns early. -/
theorem tryToRequestBlocks_of_stuck {rand : ℕ → ℕ → ℕ} {s : BlockSync P}
    (h : s.Stuck) : s.tryToRequestBlocks rand = s := by
  obtain ⟨hsyncing, -, hmissing⟩ := h
  unfold tryToRequestBlocks
  rw [if_neg (fetched_iff.not.mp hmissing)]
  simp [hsyncing]

/-- Asking for blocks neither enters nor leaves a stuck state: it arms the
timer when it starts a download. -/
theorem stuck_tryToRequestBlocks {rand : ℕ → ℕ → ℕ} {s : BlockSync P} :
    (s.tryToRequestBlocks rand).Stuck ↔ s.Stuck := by
  refine ⟨fun h => ?_, fun h => (tryToRequestBlocks_of_stuck h).symm ▸ h⟩
  by_contra hs
  unfold tryToRequestBlocks at h
  dsimp only at h
  split_ifs at h with hwaits hfetched hidle hnone hidle hnone
  · exact hs h
  · exact not_stuck_of_idle rfl h
  · exact not_stuck_of_idle rfl h
  · exact not_stuck_of_armed rfl h
  · exact hs h
  · exact hs h
  · exact not_stuck_of_armed rfl h

/-! ## The download task -/

theorem downloadSide_applyBlock (b : Block) (s : BlockSync P) :
    (applyBlock b s).downloadSide = s.downloadSide := by
  unfold applyBlock
  split_ifs <;> rfl

theorem config_applyBlock {b : Block} {s : BlockSync P}
    (hb : s.config.blockNumber < b.number) :
    (applyBlock b s).config = s.config := by
  unfold applyBlock
  rw [if_neg (not_le.mpr hb)]
  rfl

theorem downloadSide_prepareExecution (s : BlockSync P) :
    s.prepareExecution.downloadSide = s.downloadSide := by
  obtain ⟨q, pending, trace, heq⟩ := prepareExecution_eq s
  rw [heq]
  rfl

theorem downloadSide_maintainDownloadingBuffer (createBlock : BlockFactory)
    (s : BlockSync P) :
    (s.maintainDownloadingBuffer createBlock).downloadSide =
      s.downloadSide := by
  obtain ⟨q, heq⟩ := maintainDownloadingBuffer_eq createBlock s
  rw [heq]
  rfl

/-- Handing a block on leaves the timer as it is. -/
theorem stuck_applyBlock {b : Block} {s : BlockSync P}
    (hsyncing : s.isSyncing = true)
    (hb : s.config.blockNumber < b.number) :
    (applyBlock b s).Stuck ↔ s.Neglected := by
  rw [stuck_congr (downloadSide_applyBlock b s) (config_applyBlock hb)]
  exact and_iff_right hsyncing

theorem stuck_maintainDownloadingQueue {s : BlockSync P}
    (hordered : s.commitSide.Ordered) (hs : ¬ s.Stuck) :
    s.maintainDownloadingQueue.Stuck ↔
      (s.shouldSyncing = true ∧
        ∃ b, s.prepareExecution.expectedTop = some b) ∧ s.Neglected := by
  have hside := downloadSide_prepareExecution s
  have hconfig := config_prepareExecution s
  unfold maintainDownloadingQueue
  by_cases hsync : s.shouldSyncing = true
  · rw [if_neg (by simp [hsync])]
    dsimp only
    cases htop : s.prepareExecution.expectedTop with
    | none => simp [stuck_congr hside hconfig, hs]
    | some b =>
        obtain ⟨-, -, hnumber⟩ := expectedTop_eq_some.mp htop
        have hle : s.config.blockNumber ≤ s.config.executedBlock :=
          hordered.blockNumber_le
        have hlt : s.prepareExecution.config.blockNumber < b.number := by
          rw [hconfig] at hnumber ⊢
          omega
        have happly : (applyBlock b
            { s.prepareExecution.setBlocks
                (P.pop s.prepareExecution.downloadingQueue.blocks) with
              state := .downloading }).Stuck ↔ s.prepareExecution.Neglected :=
          stuck_applyBlock rfl hlt
        rw [neglected_congr hside hconfig] at happly
        simp only [happly, hsync, Option.some.injEq, exists_eq', true_and]
  · rw [if_pos (by simp [hsync])]
    simp [hsync, not_stuck_of_idle, downloadFinish]

/-- A download task makes a node stuck by handing on a block while the node
is neglected, and in no other way. -/
theorem stuck_downloadTask {rand : ℕ → ℕ → ℕ} {s : BlockSync P}
    (hordered : s.commitSide.Ordered) (hs : ¬ s.Stuck) :
    (s.downloadTask createBlock rand).Stuck ↔
      (∃ b, s.appliedBlock createBlock = some b) ∧ s.Neglected := by
  have hbuffer := commitSide_maintainDownloadingBuffer createBlock s
  have hside := downloadSide_maintainDownloadingBuffer createBlock s
  have hconfig := config_maintainDownloadingBuffer createBlock s
  rw [downloadTask, stuck_tryToRequestBlocks,
    stuck_maintainDownloadingQueue (hbuffer ▸ hordered)
      ((stuck_congr hside hconfig).not.mpr hs),
    neglected_congr hside hconfig]
  refine and_congr_left fun _ => ?_
  unfold appliedBlock
  split_ifs with hsync <;> simp [hsync]

/-! ## Steps and runs -/

/-- A download task hands on a block only while the timer is armed or every
height asked for has been executed; and no answer sets the executed height
below a height asked for while the node is downloading with the timer
disarmed. -/
def KeepsWayOut (createBlock : BlockFactory) (s : BlockSync P) (i : Input) :
    Prop :=
  (∀ rand b, i = .downloadTask rand → s.appliedBlock createBlock = some b →
    s.timerArmed = true ∨ s.Fetched) ∧
  (∀ n, s.commitSide.executedTo i = some n → s.config.blockNumber ≤ n →
    s.isSyncing = true → s.timerArmed = false → s.maxRequestNumber ≤ n)

theorem neglected_iff {s : BlockSync P} :
    ¬ s.Neglected ↔ (s.timerArmed = true ∨ s.Fetched) := by
  rw [Neglected, not_and_or, not_not, Bool.not_eq_false]

theorem stuck_iff_of_ordered {s : BlockSync P}
    (hordered : s.commitSide.Ordered) :
    s.Stuck ↔ s.isSyncing = true ∧ s.timerArmed = false ∧
      s.config.executedBlock < s.maxRequestNumber := by
  rw [Stuck, Neglected, fetched_iff_of_ordered hordered, not_le]

/-- The download task and the timer set no executed height themselves: only a
task that hands on a block can leave the node stuck. -/
theorem step_not_stuck_of_moves {s t : BlockSync P} {i : Input}
    (hordered : s.commitSide.Ordered) (hs : ¬ s.Stuck) (hmoves : MovesState i)
    (hstep : s.step createBlock i = some t) :
    ¬ t.Stuck ↔ ∀ rand b, i = .downloadTask rand →
      s.appliedBlock createBlock = some b →
        s.timerArmed = true ∨ s.Fetched := by
  cases i with
  | downloadTask rand =>
      obtain rfl := Option.some.inj hstep
      rw [stuck_downloadTask hordered hs, not_and, neglected_iff]
      constructor
      · exact fun h _ b _ hb => h ⟨b, hb⟩
      · rintro h ⟨b, hb⟩
        exact h rand b rfl hb
  | downloadTimeout =>
      simp only [step] at hstep
      split_ifs at hstep
      obtain rfl := Option.some.inj hstep
      refine iff_of_true (not_stuck_of_idle rfl) ?_
      rintro rand b ⟨⟩
  | _ => exact hmoves.elim

/-- The other steps leave the state and the timer of the download alone: only
an answer that sets the executed height back can leave the node stuck. -/
theorem step_not_stuck_of_rests {s t : BlockSync P} {i : Input}
    (hordered : s.commitSide.Ordered) (hs : ¬ s.Stuck)
    (hrests : ¬ MovesState i) (hstep : s.step createBlock i = some t) :
    ¬ t.Stuck ↔ ∀ n, s.commitSide.executedTo i = some n →
      s.config.blockNumber ≤ n → s.isSyncing = true →
        s.timerArmed = false → s.maxRequestNumber ≤ n := by
  have hside := step_downloadSide hrests hstep
  have hstate : t.state = s.state := congrArg DownloadSide.state hside
  have htimer : t.timerArmed = s.timerArmed :=
    congrArg DownloadSide.timerArmed hside
  have hmax : t.maxRequestNumber = s.maxRequestNumber :=
    congrArg DownloadSide.maxRequestNumber hside
  have hcommit := step_commitSide hordered hstep
  rw [stuck_iff_of_ordered hordered, isSyncing] at hs
  rw [stuck_iff_of_ordered (hcommit.ordered hordered), isSyncing, isSyncing,
    hstate, htimer, hmax]
  cases hto : s.commitSide.executedTo i with
  | none =>
      have hmono : s.config.executedBlock ≤ t.config.executedBlock :=
        hcommit.executedBlock_mono hto
      refine iff_of_true ?_ (by rintro n ⟨⟩)
      rintro ⟨hsyncing, hdisarmed, hlt⟩
      exact hs ⟨hsyncing, hdisarmed, hmono.trans_lt hlt⟩
  | some n =>
      have hexecuted : t.config.executedBlock =
          if s.config.blockNumber ≤ n then n else s.config.executedBlock :=
        hcommit.executedBlock_of_executedTo hto
      rw [hexecuted]
      constructor
      · rintro hkept m ⟨⟩ hlow hsyncing hdisarmed
        rw [if_pos hlow] at hkept
        exact not_lt.mp fun hlt => hkept ⟨hsyncing, hdisarmed, hlt⟩
      · rintro hcond ⟨hsyncing, hdisarmed, hlt⟩
        split_ifs at hlt with hlow
        · have hmissing := hcond n rfl hlow hsyncing hdisarmed
          omega
        · exact hs ⟨hsyncing, hdisarmed, hlt⟩

/-- One step from a node with a way out keeps it if and only if it meets the
condition. -/
theorem step_not_stuck_iff {s t : BlockSync P} {i : Input}
    (hordered : s.commitSide.Ordered) (hs : ¬ s.Stuck)
    (hstep : s.step createBlock i = some t) :
    ¬ t.Stuck ↔ s.KeepsWayOut createBlock i := by
  by_cases hmoves : MovesState i
  · rw [KeepsWayOut, step_not_stuck_of_moves hordered hs hmoves hstep,
      and_iff_left]
    intro n hn
    rw [executedTo_of_moves hmoves] at hn
    cases hn
  · rw [KeepsWayOut, step_not_stuck_of_rests hordered hs hmoves hstep,
      and_iff_right]
    rintro rand b rfl
    exact absurd trivial hmoves

/-- At the end of a download task, a node that is downloading and should sync
has its timer armed, or has executed all it asked for. -/
def EndsWithWayOut (i : Input) (t : BlockSync P) : Prop :=
  ∀ rand, i = .downloadTask rand → t.isSyncing = true →
    t.shouldSyncing = true → t.timerArmed = true ∨ t.Fetched

theorem IsInit.not_stuck {s : BlockSync P} (h : IsInit P s) : ¬ s.Stuck := by
  obtain ⟨c, genesisHash, l, -⟩ := h
  refine not_stuck_of_idle ?_
  unfold init resetConfig
  split_ifs <;> rfl

/-- A run has a way out of the downloading state at the end of each download
task and in all its states, if and only if each step meets the condition. -/
theorem run_hasWayOut_iff {s : BlockSync P} (hs : IsInit P s)
    {is : List Input} :
    ((nodeSystem P createBlock).AllTransitions
        (fun _ i t => EndsWithWayOut i t) s is ∧
      (nodeSystem P createBlock).AllStates (fun s => ¬ s.Stuck) s is) ↔
      (nodeSystem P createBlock).AllSteps (KeepsWayOut createBlock) s is := by
  have hstep : ∀ s i t, True → s.CommitInvariant (fun _ => True) →
      step (P := P) createBlock s i = some t →
        t.CommitInvariant (fun _ => True) :=
    CommitInvariant.step (A := fun _ => True) fun _ _ _ _ _ _ _ => trivial
  have hends : (nodeSystem P createBlock).AllStates (fun s => ¬ s.Stuck) s
      is → (nodeSystem P createBlock).AllTransitions
        (fun _ i t => EndsWithWayOut i t) s is := by
    rintro ⟨-, hall⟩
    refine AllTransitions.of_invariant (A := fun _ => True)
      (I := fun _ => True) (fun _ _ _ _ _ _ _ => trivial) ?_
      (fun _ _ => trivial) trivial hall
    intro s i t _ _ hstuck _ rand _ hsyncing _
    exact neglected_iff.mp fun hneglected => hstuck ⟨hsyncing, hneglected⟩
  rw [and_iff_right_of_imp hends]
  refine allStates_iff_allSteps hstep ?_ (fun _ _ => trivial)
    ⟨hs.ordered, trivial⟩ hs.not_stuck
  exact fun s i t _ hinv hnot ht => step_not_stuck_iff hinv.1 hnot ht

/-- Three heights are asked for and block 1 arrives.  The timer fires, and the
next download task executes block 1: the node is downloading again with the
timer disarmed, and asks for nothing although heights 2 and 3 are missing. -/
theorem disarmed_execution_stuck :
    ∃ s t, Sample.system.Reachable s ∧
      Sample.system.step s Sample.task = some t ∧
      ¬ EndsWithWayOut Sample.task t ∧ t.Stuck ∧ t.blocks = 0 := by
  obtain ⟨s, hrun, t, htask, hsyncing, hshould, hneglected, hempty⟩ :
      ∃ s, Sample.system.exec Sample.node
        [Sample.status Sample.peer 3, Sample.task, Sample.blocks [[1, 1]],
          .downloadTimeout] = some s ∧
      ∃ t, Sample.system.step s Sample.task = some t ∧ t.isSyncing = true ∧
        t.shouldSyncing = true ∧ t.Neglected ∧ t.blocks = 0 :=
    ⟨_, rfl, _, rfl, rfl, rfl, ⟨rfl, by decide +kernel⟩, rfl⟩
  refine ⟨s, t, .of_exec Sample.isInit_node hrun, htask, fun hends => ?_,
    ⟨hsyncing, hneglected⟩, hempty⟩
  exact neglected_iff.mpr (hends _ rfl hsyncing hshould) hneglected

theorem run_hasWayOut_sample :
    (Sample.system.AllTransitions (fun _ i t => EndsWithWayOut i t)
        Sample.node [Sample.status Sample.peer 3, Sample.task] ∧
      Sample.system.AllStates (fun s => ¬ s.Stuck) Sample.node
        [Sample.status Sample.peer 3, Sample.task]) ↔
      Sample.system.AllSteps (KeepsWayOut Sample.createBlock) Sample.node
        [Sample.status Sample.peer 3, Sample.task] :=
  run_hasWayOut_iff Sample.isInit_node

end BlockSync

end BcosSync
