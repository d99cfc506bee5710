import BcosSync.Config
import BcosSync.Support.TransitionSystem
import Mathlib.Logic.Function.Basic

/-!
# Concurrent calls on the config

`setExecutedBlock` and `resetConfig` access by access.  A call of
`setExecutedBlock` compares in one access and stores in another, with no lock
held in between; the part of `resetConfig` that stores is under `m_mutex`.
Any number of calls are under way at once, and any of them may make the next
access.

A stale store leaves `executedBlock` below `blockNumber`, unless a reset that
is under way still has to compare the two.
-/

namespace BcosSync

open TransitionSystem

/-- Where a call stands that does not hold `m_mutex`. -/
inductive ConfigCall
  | idle
  /-- `setExecutedBlock` is to compare its argument with `m_blockNumber`. -/
  | compareNumber (executedBlock : ℤ)
  | storeExecuted (executedBlock : ℤ)
  /-- `resetConfig` is to compare with `m_blockNumber`, then with 0. -/
  | checkNumber (ledgerConfig : LedgerConfig)
  | checkPositive (ledgerConfig : LedgerConfig)
  | lockMutex (ledgerConfig : LedgerConfig)

/-- The next access of the call of `resetConfig` that holds `m_mutex`. -/
inductive ResetStage
  | checkNumber
  | checkPositive
  | storeNumber
  | storeHash
  | storeNext
  | compareKnown
  | storeKnownNumber
  | storeKnownHash
  | compareExecuted
  | storeExecuted
  | storeConsensusNodes
  | storeObserverNodes

/-- One access under the mutex: the config, and the next access of the call if
it does not return. -/
def ResetStage.access (l : LedgerConfig) (c : BlockSyncConfig) :
    ResetStage → BlockSyncConfig × Option ResetStage
  | checkNumber =>
      (c, some (if l.blockNumber ≤ c.blockNumber then checkPositive
        else storeNumber))
  | checkPositive =>
      (c, if 0 < c.blockNumber then none else some storeNumber)
  | storeNumber => ({ c with blockNumber := l.blockNumber }, some storeHash)
  | storeHash => ({ c with hash := l.hash }, some storeNext)
  | storeNext =>
      ({ c with nextBlock := c.blockNumber + 1 }, some compareKnown)
  | compareKnown =>
      (c, some (if c.knownHighestNumber < l.blockNumber then storeKnownNumber
        else compareExecuted))
  | storeKnownNumber =>
      (c.setKnownHighestNumber l.blockNumber, some storeKnownHash)
  | storeKnownHash => (c.setKnownLatestHash l.hash, some compareExecuted)
  | compareExecuted =>
      (c, some (if c.executedBlock < l.blockNumber then storeExecuted
        else storeConsensusNodes))
  | storeExecuted =>
      ({ c with executedBlock := l.blockNumber }, some storeConsensusNodes)
  | storeConsensusNodes =>
      ({ c with consensusNodeList := l.consensusNodeList },
        some storeObserverNodes)
  | storeObserverNodes =>
      ({ c with observerNodeList := l.observerNodeList }, none)

/-- A call of `resetConfig` under the mutex. -/
structure Resetting where
  stage : ResetStage
  ledgerConfig : LedgerConfig

/-- The config with the calls that are under way.  The mutex has at most one
holder. -/
structure SharedConfig where
  config : BlockSyncConfig
  calls : ℕ → ConfigCall
  holder : Option Resetting

namespace SharedConfig

/-- Calls begin, and make their accesses, in any order. -/
inductive Input
  | setExecutedBlock (call : ℕ) (executedBlock : ℤ)
  | resetConfig (call : ℕ) (ledgerConfig : LedgerConfig)
  | advance (call : ℕ)
  | advanceHolder

def setCall (call : ℕ) (pc : ConfigCall) (s : SharedConfig) : SharedConfig :=
  { s with calls := Function.update s.calls call pc }

/-- The next access of a call outside the mutex. -/
def advance (call : ℕ) (s : SharedConfig) : Option SharedConfig :=
  match s.calls call with
  | .idle => none
  | .compareNumber e =>
      some (s.setCall call
        (if s.config.blockNumber ≤ e then .storeExecuted e else .idle))
  | .storeExecuted e =>
      some { s.setCall call .idle with
        config := { s.config with executedBlock := e } }
  | .checkNumber l =>
      some (s.setCall call
        (if l.blockNumber ≤ s.config.blockNumber then .checkPositive l
          else .lockMutex l))
  | .checkPositive l =>
      some (s.setCall call
        (if 0 < s.config.blockNumber then .idle else .lockMutex l))
  | .lockMutex l =>
      match s.holder with
      | some _ => none
      | none =>
          some { s.setCall call .idle with holder := some ⟨.checkNumber, l⟩ }

/-- The next access of the call that holds the mutex. -/
def advanceHolder (s : SharedConfig) : Option SharedConfig :=
  s.holder.map fun r =>
    { s with
      config := (r.stage.access r.ledgerConfig s.config).1
      holder := (r.stage.access r.ledgerConfig s.config).2.map
        fun stage => ⟨stage, r.ledgerConfig⟩ }

def step (s : SharedConfig) : Input → Option SharedConfig
  | .setExecutedBlock call e =>
      match s.calls call with
      | .idle => some (s.setCall call (.compareNumber e))
      | _ => none
  | .resetConfig call l =>
      match s.calls call with
      | .idle => some (s.setCall call (.checkNumber l))
      | _ => none
  | .advance call => s.advance call
  | .advanceHolder => s.advanceHolder

/-- All calls have finished. -/
structure Quiet (s : SharedConfig) : Prop where
  calls : ∀ call, s.calls call = .idle
  holder : s.holder = none

/-- A config no call is under way on, as `init` leaves it. -/
structure IsInit (s : SharedConfig) : Prop where
  quiet : s.Quiet
  executed : s.config.blockNumber ≤ s.config.executedBlock

end SharedConfig

/-- The interleavings of calls on one config. -/
def sharedConfig : TransitionSystem SharedConfig SharedConfig.Input where
  IsInit := SharedConfig.IsInit
  step := SharedConfig.step

/-! ## Steps -/

namespace ResetStage

/-- The accesses from the store of `m_blockNumber` to the one of
`m_executedBlock`: the call brings `executedBlock` up to its number. -/
def Repairs : ResetStage → Prop
  | storeNumber | storeHash | storeNext | compareKnown | storeKnownNumber
  | storeKnownHash | compareExecuted | storeExecuted => True
  | _ => False

/-- The accesses after the store of `m_blockNumber`. -/
def Stored : ResetStage → Prop
  | checkNumber | checkPositive | storeNumber => False
  | _ => True

variable {stage : ResetStage} {l : LedgerConfig} {c : BlockSyncConfig}

/-- `m_blockNumber` holds the number of the call once that is stored. -/
theorem access_number (h : stage.Stored → c.blockNumber = l.blockNumber) :
    ∀ next ∈ (stage.access l c).2, next.Stored →
      (stage.access l c).1.blockNumber = l.blockNumber := by
  intro next hnext hstored
  cases stage with
  | checkNumber =>
      obtain rfl := Option.mem_some_iff.mp hnext
      split_ifs at hstored <;> exact hstored.elim
  | checkPositive =>
      simp only [access] at hnext
      split_ifs at hnext
      · cases hnext
      · obtain rfl := Option.mem_some_iff.mp hnext
        exact hstored.elim
  | storeNumber => rfl
  | storeObserverNodes => cases hnext
  | storeHash => exact h trivial
  | storeNext => exact h trivial
  | compareKnown => exact h trivial
  | storeKnownNumber => exact h trivial
  | storeKnownHash => exact h trivial
  | compareExecuted => exact h trivial
  | storeExecuted => exact h trivial
  | storeConsensusNodes => exact h trivial

/-- `executedBlock` stays up with `blockNumber`, or the call is about to bring
it up. -/
theorem access_kept (hnumber : stage.Stored → c.blockNumber = l.blockNumber)
    (h : c.blockNumber ≤ c.executedBlock ∨ stage.Repairs) :
    (stage.access l c).1.blockNumber ≤ (stage.access l c).1.executedBlock ∨
      ∃ next ∈ (stage.access l c).2, next.Repairs := by
  cases stage with
  | checkNumber => exact .inl (h.resolve_right id)
  | checkPositive => exact .inl (h.resolve_right id)
  | storeNumber => exact .inr ⟨_, rfl, trivial⟩
  | storeHash => exact .inr ⟨_, rfl, trivial⟩
  | storeNext => exact .inr ⟨_, rfl, trivial⟩
  | compareKnown =>
      refine .inr ⟨_, rfl, ?_⟩
      split_ifs <;> trivial
  | storeKnownNumber => exact .inr ⟨_, rfl, trivial⟩
  | storeKnownHash => exact .inr ⟨_, rfl, trivial⟩
  | compareExecuted =>
      -- the comparison decides between a store and no need for one
      by_cases hbelow : c.executedBlock < l.blockNumber
      · exact .inr ⟨_, rfl, by rw [if_pos hbelow]; trivial⟩
      · exact .inl ((hnumber trivial).trans_le (not_lt.mp hbelow))
  | storeExecuted => exact .inl (hnumber trivial).le
  | storeConsensusNodes => exact .inl (h.resolve_right id)
  | storeObserverNodes => exact .inl (h.resolve_right id)

end ResetStage

namespace SharedConfig

variable {s t : SharedConfig} {call : ℕ}

/-- The mutex is held by a reset that repairs `executedBlock`. -/
def Repairing (s : SharedConfig) : Prop :=
  ∃ r ∈ s.holder, r.stage.Repairs

/-- `executedBlock` is up with `blockNumber`, or is about to be. -/
def Kept (s : SharedConfig) : Prop :=
  s.config.blockNumber ≤ s.config.executedBlock ∨ s.Repairing

/-- Only the holder of the mutex stores `m_blockNumber`. -/
def Numbered (s : SharedConfig) : Prop :=
  ∀ r ∈ s.holder, r.stage.Stored →
    s.config.blockNumber = r.ledgerConfig.blockNumber

/-- A store of `setExecutedBlock` is not stale, or comes before a reset under
the mutex has compared or stored `m_executedBlock`. -/
def StoresInTime (s : SharedConfig) : Input → Prop
  | .advance call =>
      ∀ e, s.calls call = .storeExecuted e →
        s.config.blockNumber ≤ e ∨ s.Repairing
  | _ => True

instance (stage : ResetStage) : Decidable stage.Repairs := by
  unfold ResetStage.Repairs
  split <;> infer_instance

instance (s : SharedConfig) : Decidable s.Repairing :=
  inferInstanceAs (Decidable (∃ r ∈ s.holder, r.stage.Repairs))

instance (s : SharedConfig) : ∀ i, Decidable (s.StoresInTime i)
  | .advance call =>
      match h : s.calls call with
      | .storeExecuted e =>
          decidable_of_iff (s.config.blockNumber ≤ e ∨ s.Repairing)
            ⟨fun htime e' he' => ConfigCall.storeExecuted.inj
              (h.symm.trans he') ▸ htime, fun htime => htime e h⟩
      | .idle | .compareNumber _ | .checkNumber _ | .checkPositive _
      | .lockMutex _ => isTrue fun _ he => by cases h.symm.trans he
  | .setExecutedBlock _ _ | .resetConfig _ _ | .advanceHolder => isTrue trivial

theorem Quiet.kept_iff (h : s.Quiet) :
    s.Kept ↔ s.config.blockNumber ≤ s.config.executedBlock := by
  refine or_iff_left ?_
  rintro ⟨r, hr, -⟩
  rw [h.holder] at hr
  cases hr

/-- What the next access of a call outside the mutex does. -/
theorem advance_cases (h : s.advance call = some t) :
    (∃ pc, t = s.setCall call pc ∧
        ∀ e, s.calls call ≠ .storeExecuted e) ∨
      (∃ e, s.calls call = .storeExecuted e ∧
        t = { s.setCall call .idle with
          config := { s.config with executedBlock := e } }) ∨
      ∃ l, s.calls call = .lockMutex l ∧ s.holder = none ∧
        t = { s.setCall call .idle with
          holder := some ⟨.checkNumber, l⟩ } := by
  rw [advance] at h
  cases hpc : s.calls call with
  | idle =>
      rw [hpc] at h
      cases h
  | compareNumber e =>
      rw [hpc] at h
      exact .inl ⟨_, (Option.some.inj h).symm, fun e he => by cases he⟩
  | storeExecuted e =>
      rw [hpc] at h
      exact .inr (.inl ⟨e, rfl, (Option.some.inj h).symm⟩)
  | checkNumber l =>
      rw [hpc] at h
      exact .inl ⟨_, (Option.some.inj h).symm, fun e he => by cases he⟩
  | checkPositive l =>
      rw [hpc] at h
      exact .inl ⟨_, (Option.some.inj h).symm, fun e he => by cases he⟩
  | lockMutex l =>
      rw [hpc] at h
      dsimp only at h
      cases hholder : s.holder with
      | some r =>
          rw [hholder] at h
          cases h
      | none =>
          rw [hholder] at h
          exact .inr (.inr ⟨l, rfl, rfl, (Option.some.inj h).symm⟩)

theorem advanceHolder_eq_some (h : s.advanceHolder = some t) :
    ∃ r, s.holder = some r ∧
      t = { s with
        config := (r.stage.access r.ledgerConfig s.config).1
        holder := (r.stage.access r.ledgerConfig s.config).2.map
          fun stage => ⟨stage, r.ledgerConfig⟩ } := by
  rw [advanceHolder, Option.map_eq_some_iff] at h
  obtain ⟨r, hr, rfl⟩ := h
  exact ⟨r, hr, rfl⟩

/-- A step lets a call begin or go on without touching the config, stores a
height that has been compared, locks the mutex, or makes an access under
it. -/
theorem step_cases {i : Input} (h : s.step i = some t) :
    (s.StoresInTime i ∧ t.config = s.config ∧ t.holder = s.holder) ∨
      (∃ call e, i = .advance call ∧ s.calls call = .storeExecuted e ∧
        t.config = { s.config with executedBlock := e } ∧
        t.holder = s.holder) ∨
      (s.StoresInTime i ∧ s.holder = none ∧ t.config = s.config ∧
        ∃ l, t.holder = some ⟨.checkNumber, l⟩) ∨
      (s.StoresInTime i ∧ ∃ r, s.holder = some r ∧
        t.config = (r.stage.access r.ledgerConfig s.config).1 ∧
        t.holder = (r.stage.access r.ledgerConfig s.config).2.map
          fun stage => ⟨stage, r.ledgerConfig⟩) := by
  cases i with
  | setExecutedBlock call e =>
      rw [step] at h
      split at h
      · obtain rfl := Option.some.inj h
        exact .inl ⟨trivial, rfl, rfl⟩
      · cases h
  | resetConfig call l =>
      rw [step] at h
      split at h
      · obtain rfl := Option.some.inj h
        exact .inl ⟨trivial, rfl, rfl⟩
      · cases h
  | advance call =>
      rcases advance_cases h with ⟨pc, rfl, hpc⟩ | ⟨e, hpc, rfl⟩ |
        ⟨l, hpc, hfree, rfl⟩
      · exact .inl ⟨fun e he => absurd he (hpc e), rfl, rfl⟩
      · exact .inr (.inl ⟨call, e, rfl, hpc, rfl, rfl⟩)
      · refine .inr (.inr (.inl ⟨fun e he => ?_, hfree, rfl, l, rfl⟩))
        cases hpc.symm.trans he
  | advanceHolder =>
      obtain ⟨r, hr, rfl⟩ := advanceHolder_eq_some h
      exact .inr (.inr (.inr ⟨trivial, r, hr, rfl, rfl⟩))

/-! ## Calls that are not interrupted -/

theorem calls_setCall (call : ℕ) (pc : ConfigCall) (s : SharedConfig) :
    (s.setCall call pc).calls call = pc :=
  Function.update_self _ _ _

theorem setCall_setCall (call : ℕ) (pc pc' : ConfigCall) (s : SharedConfig) :
    (s.setCall call pc).setCall call pc' = s.setCall call pc' := by
  rw [setCall, setCall, setCall, Function.update_idem]

theorem setCall_of_eq {pc : ConfigCall} (h : s.calls call = pc) :
    s.setCall call pc = s := by
  rw [setCall, ← h, Function.update_eq_self]

theorem advance_compareNumber (call : ℕ) (e : ℤ) (s : SharedConfig) :
    (s.setCall call (.compareNumber e)).advance call =
      some (s.setCall call
        (if s.config.blockNumber ≤ e then .storeExecuted e else .idle)) := by
  rw [advance, calls_setCall]
  dsimp only
  rw [setCall_setCall]
  rfl

theorem advance_checkNumber (call : ℕ) (l : LedgerConfig)
    (s : SharedConfig) :
    (s.setCall call (.checkNumber l)).advance call =
      some (s.setCall call (if l.blockNumber ≤ s.config.blockNumber then
        .checkPositive l else .lockMutex l)) := by
  rw [advance, calls_setCall]
  dsimp only
  rw [setCall_setCall]
  rfl

theorem advance_checkPositive (call : ℕ) (l : LedgerConfig)
    (s : SharedConfig) :
    (s.setCall call (.checkPositive l)).advance call =
      some (s.setCall call
        (if 0 < s.config.blockNumber then .idle else .lockMutex l)) := by
  rw [advance, calls_setCall]
  dsimp only
  rw [setCall_setCall]
  rfl

/-- A call of `setExecutedBlock` that is not interrupted. -/
theorem exec_setExecutedBlock (hs : s.Quiet) (call : ℕ) (e : ℤ) :
    ∃ is, sharedConfig.exec s (.setExecutedBlock call e :: is) =
      some { s with config := s.config.setExecutedBlock e } := by
  have hidle := hs.calls call
  have hbegin : s.step (.setExecutedBlock call e) =
      some (s.setCall call (.compareNumber e)) := by
    rw [step, hidle]
  have hcompare := advance_compareNumber call e s
  by_cases hle : s.config.blockNumber ≤ e
  · rw [if_pos hle] at hcompare
    have hstore : (s.setCall call (.storeExecuted e)).advance call =
        some { s with config := { s.config with executedBlock := e } } := by
      rw [advance, calls_setCall]
      dsimp only
      rw [setCall_setCall, setCall_of_eq hidle]
      rfl
    refine ⟨[.advance call, .advance call], exec_cons hbegin ?_⟩
    refine exec_cons hcompare (exec_cons hstore ?_)
    rw [BlockSyncConfig.setExecutedBlock, if_pos hle]
    rfl
  · rw [if_neg hle, setCall_of_eq hidle] at hcompare
    refine ⟨[.advance call], exec_cons hbegin ?_⟩
    refine exec_cons hcompare ?_
    rw [BlockSyncConfig.setExecutedBlock, if_neg hle]
    rfl

/-- The stores of a call that holds the mutex. -/
theorem exec_stores {r : Resetting} (hr : s.holder = some r)
    (hstage : r.stage = .storeNumber) :
    ∃ is, sharedConfig.exec s is =
      some { s with
        config := { s.config.resetBlockInfo r.ledgerConfig.blockNumber
          r.ledgerConfig.hash with
            consensusNodeList := r.ledgerConfig.consensusNodeList
            observerNodeList := r.ledgerConfig.observerNodeList }
        holder := none } := by
  obtain ⟨c, calls, holder⟩ := s
  obtain ⟨stage, l⟩ := r
  subst hstage
  subst hr
  unfold BlockSyncConfig.resetBlockInfo
  by_cases hknown : c.knownHighestNumber < l.blockNumber <;>
    by_cases hexecuted : c.executedBlock < l.blockNumber
  · refine ⟨List.replicate 10 .advanceHolder, ?_⟩
    simp [exec, sharedConfig, step, advanceHolder, ResetStage.access, hknown,
      hexecuted, BlockSyncConfig.setKnownHighestNumber,
      BlockSyncConfig.setKnownLatestHash, List.replicate]
  · refine ⟨List.replicate 9 .advanceHolder, ?_⟩
    simp [exec, sharedConfig, step, advanceHolder, ResetStage.access, hknown,
      hexecuted, BlockSyncConfig.setKnownHighestNumber,
      BlockSyncConfig.setKnownLatestHash, List.replicate]
  · refine ⟨List.replicate 8 .advanceHolder, ?_⟩
    simp [exec, sharedConfig, step, advanceHolder, ResetStage.access, hknown,
      hexecuted, List.replicate]
  · refine ⟨List.replicate 7 .advanceHolder, ?_⟩
    simp [exec, sharedConfig, step, advanceHolder, ResetStage.access, hknown,
      hexecuted, List.replicate]

/-- A number that is not ignored passes the check before the mutex. -/
theorem exec_check {l : LedgerConfig} (h : ¬ s.config.ignores l)
    (call : ℕ) :
    ∃ is, sharedConfig.exec (s.setCall call (.checkNumber l)) is =
      some (s.setCall call (.lockMutex l)) := by
  have hnumber := advance_checkNumber call l s
  by_cases hle : l.blockNumber ≤ s.config.blockNumber
  · rw [if_pos hle] at hnumber
    have hpositive := advance_checkPositive call l s
    rw [if_neg fun hpos => h ⟨hle, hpos⟩] at hpositive
    refine ⟨[.advance call, .advance call], exec_cons hnumber ?_⟩
    exact exec_cons hpositive rfl
  · rw [if_neg hle] at hnumber
    exact ⟨[.advance call], exec_cons hnumber rfl⟩

/-- It passes the check under the mutex too. -/
theorem exec_checkAgain {l : LedgerConfig} (h : ¬ s.config.ignores l)
    (hs : s.holder = some ⟨.checkNumber, l⟩) :
    ∃ is, sharedConfig.exec s is =
      some { s with holder := some ⟨.storeNumber, l⟩ } := by
  obtain ⟨c, calls, holder⟩ := s
  subst hs
  by_cases hle : l.blockNumber ≤ c.blockNumber
  · have hpos : ¬ 0 < c.blockNumber := fun hpos => h ⟨hle, hpos⟩
    refine ⟨[.advanceHolder, .advanceHolder], ?_⟩
    simp [exec, sharedConfig, step, advanceHolder, ResetStage.access, hle,
      hpos]
  · refine ⟨[.advanceHolder], ?_⟩
    simp [exec, sharedConfig, step, advanceHolder, ResetStage.access, hle]

/-- A call of `resetConfig` that is not interrupted. -/
theorem exec_resetConfig (hs : s.Quiet) (call : ℕ) (l : LedgerConfig) :
    ∃ is, sharedConfig.exec s (.resetConfig call l :: is) =
      some { s with config := s.config.resetConfig l } := by
  obtain ⟨hcalls, hfree⟩ := hs
  have hidle := hcalls call
  have hbegin : s.step (.resetConfig call l) =
      some (s.setCall call (.checkNumber l)) := by
    rw [step, hidle]
  by_cases hignores : s.config.ignores l
  · refine ⟨[.advance call, .advance call], exec_cons hbegin ?_⟩
    have hnumber := advance_checkNumber call l s
    have hpositive := advance_checkPositive call l s
    rw [if_pos hignores.1] at hnumber
    rw [if_pos hignores.2, setCall_of_eq hidle] at hpositive
    refine exec_cons hnumber (exec_cons hpositive ?_)
    rw [BlockSyncConfig.resetConfig_of_ignores hignores]
    rfl
  · have hlock : (s.setCall call (.lockMutex l)).advance call =
        some { s with holder := some ⟨.checkNumber, l⟩ } := by
      rw [advance, calls_setCall]
      dsimp only
      rw [setCall_setCall, setCall_of_eq hidle]
      split
      · next r hr => cases hfree.symm.trans hr
      · rfl
    obtain ⟨is₁, hcheck⟩ := exec_check hignores call
    obtain ⟨is₂, hagain⟩ := exec_checkAgain
      (s := { s with holder := some ⟨.checkNumber, l⟩ }) hignores rfl
    obtain ⟨is₃, hstores⟩ := exec_stores
      (s := { s with holder := some ⟨.storeNumber, l⟩ }) rfl rfl
    have hlocked : sharedConfig.exec (s.setCall call (.lockMutex l))
        (.advance call :: (is₂ ++ is₃)) = _ :=
      exec_cons hlock (exec_append hagain hstores)
    have hrun := exec_append hcheck hlocked
    refine ⟨_, exec_cons hbegin (hrun.trans ?_)⟩
    rw [BlockSyncConfig.resetConfig, if_neg hignores, ← hfree]

/-! ## Runs -/

theorem step_numbered {i : Input} (hs : s.Numbered) (h : s.step i = some t) :
    t.Numbered := by
  rcases step_cases h with ⟨-, hconfig, hholder⟩ |
    ⟨call, e, -, -, hconfig, hholder⟩ | ⟨-, -, -, l, hholder⟩ |
    ⟨-, r, hr, hconfig, hholder⟩
  · rw [Numbered, hconfig, hholder]
    exact hs
  · rw [Numbered, hconfig, hholder]
    exact hs
  · intro r hr hstored
    rw [hholder] at hr
    obtain rfl := Option.mem_some_iff.mp hr
    exact hstored.elim
  · intro r' hr' hstored
    rw [hholder] at hr'
    obtain ⟨next, hnext, rfl⟩ := Option.mem_map.mp hr'
    rw [hconfig]
    exact ResetStage.access_number (hs r hr) next hnext hstored

/-- A step keeps `executedBlock` up, or about to be brought up, if and only if
it makes no stale store. -/
theorem step_kept_iff {i : Input} (hs : s.Numbered) (hkept : s.Kept)
    (h : s.step i = some t) : t.Kept ↔ s.StoresInTime i := by
  rcases step_cases h with ⟨htime, hconfig, hholder⟩ |
    ⟨call, e, rfl, hpc, hconfig, hholder⟩ |
    ⟨htime, hfree, hconfig, l, hholder⟩ |
    ⟨htime, r, hr, hconfig, hholder⟩
  · refine iff_of_true ?_ htime
    rw [Kept, Repairing, hconfig, hholder]
    exact hkept
  · rw [Kept, Repairing, hconfig, hholder]
    constructor
    · intro hkept e' he'
      obtain rfl := ConfigCall.storeExecuted.inj (hpc.symm.trans he')
      exact hkept
    · exact fun htime => htime e hpc
  · refine iff_of_true (.inl ?_) htime
    rw [hconfig]
    refine hkept.resolve_right ?_
    rintro ⟨r, hr, -⟩
    rw [hfree] at hr
    cases hr
  · have hrepairs : s.config.blockNumber ≤ s.config.executedBlock ∨
        r.stage.Repairs := by
      refine hkept.imp_right ?_
      rintro ⟨r', hr', hstage⟩
      obtain rfl := Option.some.inj (hr.symm.trans hr')
      exact hstage
    refine iff_of_true ?_ htime
    rw [Kept, Repairing, hconfig, hholder]
    refine (ResetStage.access_kept (hs r hr) hrepairs).imp_right ?_
    rintro ⟨next, hnext, hstage⟩
    exact ⟨_, Option.mem_map.mpr ⟨next, hnext, rfl⟩, hstage⟩

theorem IsInit.numbered (h : s.IsInit) : s.Numbered := by
  intro r hr
  rw [h.quiet.holder] at hr
  cases hr

/-- Where every store of `setExecutedBlock` comes in time, `executedBlock` is
at least `blockNumber` whenever all calls have finished.  The condition is
exact: it fails just where `executedBlock` is left below `blockNumber` with no
reset about to bring it up. -/
theorem run_executedBlock_kept (hs : sharedConfig.IsInit s)
    (is : List Input) :
    (sharedConfig.AllSteps StoresInTime s is →
      sharedConfig.AllStates
        (fun s => s.Quiet → s.config.blockNumber ≤ s.config.executedBlock)
        s is) ∧
    (sharedConfig.AllStates Kept s is ↔
      sharedConfig.AllSteps StoresInTime s is) := by
  have hstep : ∀ s i t, True → s.Numbered →
      sharedConfig.step s i = some t → t.Numbered :=
    fun s i t _ hs ht => step_numbered hs ht
  have hkept : s.Kept := .inl hs.executed
  have hexact : sharedConfig.AllStates Kept s is ↔
      sharedConfig.AllSteps StoresInTime s is :=
    allStates_iff_allSteps (A := fun _ => True) hstep
      (fun s i t _ hs hkept ht => step_kept_iff hs hkept ht)
      (fun _ _ => trivial) hs.numbered hkept
  refine ⟨fun htime => ?_, hexact⟩
  exact (hexact.mpr htime).mono fun s hkept hquiet =>
    hquiet.kept_iff.mp hkept

/-! ## A stale store -/

/-- A config at height 0 no call is under way on. -/
def sample : SharedConfig where
  config := { nodeID := ⟨0, []⟩ }
  calls _ := .idle
  holder := none

/-- The ledger config of block 1. -/
def sampleLedgerConfig : LedgerConfig where
  blockNumber := 1
  hash := HashType.zero
  consensusNodeList := []
  observerNodeList := []

theorem isInit_sample : sharedConfig.IsInit sample :=
  ⟨⟨fun _ => rfl, rfl⟩, le_rfl⟩

/-- The callback of a failed execution compares 0 with `blockNumber`; then
consensus resets the config to height 1; then the callback stores. -/
theorem staleStore_leaves_executedBlock_behind :
    ∃ t, sharedConfig.Reachable t ∧ t.Quiet ∧
      ¬ t.config.blockNumber ≤ t.config.executedBlock := by
  obtain ⟨t, hrun, hnumber, hexecuted, hholder, hcalls⟩ :
      ∃ t, sharedConfig.exec sample
        ([.setExecutedBlock 0 0, .advance 0,
          .resetConfig 1 sampleLedgerConfig, .advance 1, .advance 1] ++
          List.replicate 11 .advanceHolder ++ [.advance 0]) = some t ∧
        t.config.blockNumber = 1 ∧ t.config.executedBlock = 0 ∧
        t.holder = none ∧ ∀ call, t.calls call = .idle := by
    refine ⟨_, rfl, rfl, rfl, rfl, fun call => ?_⟩
    simp only [setCall, sample, Function.update_apply]
    split_ifs <;> rfl
  refine ⟨t, .of_exec isInit_sample hrun, ⟨hcalls, hholder⟩, ?_⟩
  rw [hnumber, hexecuted]
  decide

/-- A callback of an executed block compares 1 with `blockNumber` and stores
it while consensus resets the config to height 1. -/
def timelyCalls : List Input :=
  [.setExecutedBlock 0 1, .advance 0, .resetConfig 1 sampleLedgerConfig,
    .advance 1, .advance 1, .advanceHolder, .advanceHolder, .advance 0] ++
    List.replicate 8 .advanceHolder

theorem run_executedBlock_kept_sample :
    sharedConfig.AllStates
      (fun s => s.Quiet → s.config.blockNumber ≤ s.config.executedBlock)
      sample timelyCalls ∧
    ∃ t, sharedConfig.exec sample timelyCalls = some t ∧
      t.config.blockNumber = 1 ∧ t.config.executedBlock = 1 ∧
      t.holder = none :=
  ⟨(run_executedBlock_kept isInit_sample timelyCalls).1 (by decide +kernel),
    _, rfl, rfl, rfl, rfl⟩

end SharedConfig

end BcosSync
