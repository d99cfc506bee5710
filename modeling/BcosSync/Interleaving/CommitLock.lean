import BcosSync.Interleaving.BlockQueue

/-!
# The commit chain and its lock

The commit chain as a call stack.  The consensus module, the ledger and the
scheduler may answer a call before it returns: then the callback runs on top
of the caller, and `tryToCommitBlockToLedger` below it still holds
`x_commitQueue`.

Two places of the chain take that lock, and both are reached only through a
commit that has succeeded.  So the chain waits for its own lock where the
scheduler answers a commit inline with success, below the guard, and nowhere
else.
-/

namespace BcosSync

open TransitionSystem BlockSync

/-- What is left to do of one function on the stack. -/
inductive CommitFrame
  /-- `updateCommitQueue` pushes the block, under the lock. -/
  | pushCommit (block : Block)
  | tryToCommit
  /-- The guard of `tryToCommitBlockToLedger` is destructed. -/
  | unlock
  | checkAndCommit (block : Block)
  | callCheck (block : Block)
  | onCheck (block : Block) (answer : Except Error Bool)
  | commitBlock (block : Block)
  | callStore (block : Block)
  | onStore (block : Block) (error : Option Error)
  | callCommit (block : Block)
  | onCommit (block : Block) (answer : Except Error LedgerConfig)
  | finalize (block : Block) (ledgerConfig : LedgerConfig)
  | newBlock (call : NewBlockCall)
deriving DecidableEq

variable {P : BlockQueue}

namespace CommitFrame

/-- The function acquires `x_commitQueue` next. -/
def acquires : CommitFrame → Bool
  | pushCommit _ | tryToCommit | newBlock .clearCommitQueue => true
  | _ => false

/-- The functions that neither acquire the lock nor call one that does, unless
a service answers a call of theirs inline. -/
def Harmless : CommitFrame → Prop
  | unlock | checkAndCommit _ | callCheck _ | onCheck _ _ | commitBlock _
  | callStore _ | onStore _ _ | callCommit _ | onCommit _ (.error _) => True
  | _ => False

/-- The function goes on, up to its next call or its end: the functions that
are on the stack in its place.  The calls of services are inputs. -/
def advance (s : BlockSync P) :
    CommitFrame → Option (BlockSync P × List CommitFrame)
  | pushCommit b =>
      some (s.setCommitQueue (P.push s.downloadingQueue.commitQueue b), [])
  | tryToCommit =>
      let s := s.setCommitQueue (DownloadingQueue.popUpTo s.config.blockNumber
        s.downloadingQueue.commitQueue)
      match P.top s.downloadingQueue.commitQueue with
      | none => some (s, [])
      | some b =>
          if b.number = s.config.nextBlock then
            some (s.setCommitQueue (P.pop s.downloadingQueue.commitQueue),
              [checkAndCommit b, unlock])
          else some (s, [])
  | unlock => some (s, [])
  | checkAndCommit b =>
      if b.number ≠ s.config.nextBlock then
        some (s.setExecutedBlock s.config.blockNumber, [])
      else some (s, [callCheck b])
  | onCheck b a =>
      let s := s.log (.asyncCheckBlockAnswer b a)
      match a with
      | .error _ => some (s.setExecutedBlock (b.number - 1), [])
      | .ok true => some (s, [commitBlock b])
      | .ok false => some (s.setExecutedBlock (b.number - 1), [])
  | commitBlock b =>
      some (s, if b.transactionsSize = 0 then [callCommit b, callStore b]
        else [callStore b])
  | onStore b e =>
      let s := s.log (.asyncStoreTransactionsAnswer b e)
      match e with
      | some _ => some (s.setExecutedBlock (b.number - 1), [])
      | none => some (s, [callCommit b])
  | onCommit b a =>
      let s := s.log (.commitBlockAnswer b a)
      match a with
      | .error _ => some (s.setExecutedBlock (b.number - 1), [])
      | .ok l =>
          some (s, [finalize b
            ((l.setTxsSize b.transactionsSize).setSealerId
              b.blockHeader.sealer)])
  | finalize b l =>
      some (s.log (.newBlockHandler b l),
        [newBlock (.resetConfig l), tryToCommit])
  | newBlock c =>
      (c.call s).map fun (s, next) =>
        (s, match next with
          | .idle => []
          | next => [newBlock next])
  | callCheck _ | callStore _ | callCommit _ => none

end CommitFrame

/-- A node, and the functions of the commit chain on one call stack, the
innermost first. -/
structure CommitStack (P : BlockQueue) where
  node : BlockSync P
  stack : List CommitFrame

namespace CommitStack

/-- What starts a stack. -/
inductive Entry
  | tryToCommit
  | updateCommitQueue (block : Block)
  | newBlock (ledgerConfig : LedgerConfig)
  | asyncCheckBlockAnswer (block : Block) (answer : Except Error Bool)
  | asyncStoreTransactionsAnswer (block : Block) (error : Option Error)
  | commitBlockAnswer (block : Block) (answer : Except Error LedgerConfig)

inductive Input (P : BlockQueue)
  /-- A stack is started, while there is none. -/
  | enter (entry : Entry)
  | advance
  /-- The function calls a service, which answers inline or later. -/
  | asyncCheckBlock (answer : Option (Except Error Bool))
  | asyncStoreTransactions (answer : Option (Option Error))
  | commitBlock (answer : Option (Except Error LedgerConfig))
  /-- Other call stacks have changed the node. -/
  | others (node : BlockSync P)

/-- The node when a stack is started, and its first functions.  An answer that
comes later is for a callback that is outstanding. -/
def enter (s : BlockSync P) : Entry → Option (BlockSync P × List CommitFrame)
  | .tryToCommit => some (s, [.tryToCommit])
  | .updateCommitQueue b => some (s, [.pushCommit b, .tryToCommit])
  | .newBlock l => some (s, [.newBlock (.resetConfig l), .tryToCommit])
  | .asyncCheckBlockAnswer b a =>
      if .asyncCheckBlock b ∈ s.pending then
        some (s.resolve (.asyncCheckBlock b), [.onCheck b a])
      else none
  | .asyncStoreTransactionsAnswer b e =>
      if .asyncStoreTransactions b ∈ s.pending then
        some (s.resolve (.asyncStoreTransactions b), [.onStore b e])
      else none
  | .commitBlockAnswer b a =>
      if .commitBlock b ∈ s.pending then
        some (s.resolve (.commitBlock b), [.onCommit b a])
      else none

/-- A service is called: the callback is left with it, or called at once. -/
def call {α : Type} (callback : Callback) (onAnswer : α → CommitFrame)
    (s : BlockSync P) (rest : List CommitFrame) :
    Option α → CommitStack P
  | none => ⟨s.await callback, rest⟩
  | some a => ⟨s, onAnswer a :: rest⟩

/-- The call stack waits for `x_commitQueue` and holds it. -/
def Deadlocked (c : CommitStack P) : Prop :=
  ∃ f rest, c.stack = f :: rest ∧ f.acquires = true ∧ .unlock ∈ rest

/-- A function that is about to acquire the lock its stack holds does not go
on. -/
def step (c : CommitStack P) : Input P → Option (CommitStack P)
  | .enter entry =>
      if c.stack = [] then
        (enter c.node entry).map fun (node, stack) => ⟨node, stack⟩
      else none
  | .advance =>
      match c.stack with
      | [] => none
      | f :: rest =>
          if f.acquires = true ∧ .unlock ∈ rest then none
          else (f.advance c.node).map fun (node, fs) => ⟨node, fs ++ rest⟩
  | .asyncCheckBlock answer =>
      match c.stack with
      | .callCheck b :: rest =>
          some (call (.asyncCheckBlock b) (.onCheck b)
            (c.node.log (.asyncCheckBlock b c.node.config.nextBlock)) rest
            answer)
      | _ => none
  | .asyncStoreTransactions answer =>
      match c.stack with
      | .callStore b :: rest =>
          some (call (.asyncStoreTransactions b) (.onStore b)
            (c.node.log (.asyncStoreTransactions b
              (b.transactions.map Transaction.encodedData)
              (b.transactions.map Transaction.hash))) rest answer)
      | _ => none
  | .commitBlock answer =>
      match c.stack with
      | .callCommit b :: rest =>
          some (call (.commitBlock b) (.onCommit b)
            (c.node.log (.commitBlock b)) rest answer)
      | _ => none
  | .others node => some { c with node := node }

def IsInit (c : CommitStack P) : Prop := c.stack = []

end CommitStack

/-- The runs of the commit chain on one call stack. -/
def commitStackSystem (P : BlockQueue) :
    TransitionSystem (CommitStack P) (CommitStack.Input P) where
  IsInit := CommitStack.IsInit
  step := CommitStack.step

/-! ## Answers that all come later -/

namespace CommitStack

section Later

/-- The stack goes on, and no service answers inline. -/
inductive RunsLater : CommitStack P → CommitStack P → Prop
  | refl (c : CommitStack P) : RunsLater c c
  | advance {c d e : CommitStack P} :
      c.step .advance = some d → RunsLater d e → RunsLater c e
  | check {c d e : CommitStack P} :
      c.step (.asyncCheckBlock none) = some d → RunsLater d e →
        RunsLater c e
  | store {c d e : CommitStack P} :
      c.step (.asyncStoreTransactions none) = some d → RunsLater d e →
        RunsLater c e
  | commit {c d e : CommitStack P} :
      c.step (.commitBlock none) = some d → RunsLater d e → RunsLater c e

theorem RunsLater.trans {c d e : CommitStack P} (h : RunsLater c d)
    (h' : RunsLater d e) : RunsLater c e := by
  induction h with
  | refl => exact h'
  | advance hstep _ ih => exact .advance hstep (ih h')
  | check hstep _ ih => exact .check hstep (ih h')
  | store hstep _ ih => exact .store hstep (ih h')
  | commit hstep _ ih => exact .commit hstep (ih h')

variable {rest : List CommitFrame}

theorem step_advance {s t : BlockSync P} {f : CommitFrame}
    {fs : List CommitFrame} (hfree : f.acquires = false ∨ .unlock ∉ rest)
    (h : f.advance s = some (t, fs)) :
    step ⟨s, f :: rest⟩ .advance = some ⟨t, fs ++ rest⟩ := by
  have hgoes : ¬ (f.acquires = true ∧ .unlock ∈ rest) := by
    rintro ⟨hacquires, hunlock⟩
    rcases hfree with hfalse | hfree
    · cases hfalse.symm.trans hacquires
    · exact hfree hunlock
  rw [step]
  dsimp only
  rw [if_neg hgoes, h]
  rfl

theorem runsLater_checkAndCommit (b : Block) (s : BlockSync P) :
    RunsLater ⟨s, .checkAndCommit b :: rest⟩
      ⟨checkAndCommitBlock none b s, rest⟩ := by
  by_cases hnumber : b.number ≠ s.config.nextBlock
  · have hadvance : (CommitFrame.checkAndCommit b).advance s =
        some (s.setExecutedBlock s.config.blockNumber, []) := if_pos hnumber
    rw [checkAndCommitBlock, if_pos hnumber]
    exact .advance (step_advance (.inl rfl) hadvance) (.refl _)
  · have hadvance : (CommitFrame.checkAndCommit b).advance s =
        some (s, [.callCheck b]) := if_neg hnumber
    rw [checkAndCommitBlock, if_neg hnumber]
    exact .advance (step_advance (.inl rfl) hadvance)
      (.check rfl (.refl _))

/-- `tryToCommitBlockToLedger`, on a stack that does not hold the lock. -/
theorem runsLater_tryToCommit (hfree : .unlock ∉ rest) (s : BlockSync P) :
    RunsLater ⟨s, .tryToCommit :: rest⟩
      ⟨tryToCommitBlockToLedger none s, rest⟩ := by
  obtain ⟨popped, hpopped⟩ : ∃ popped, s.setCommitQueue
      (DownloadingQueue.popUpTo s.config.blockNumber
        s.downloadingQueue.commitQueue) = popped := ⟨_, rfl⟩
  cases htop : P.top popped.downloadingQueue.commitQueue with
  | none =>
      have hadvance : CommitFrame.tryToCommit.advance s =
          some (popped, []) := by
        simp only [CommitFrame.advance, hpopped, htop]
      have hresult : tryToCommitBlockToLedger none s = popped := by
        simp only [tryToCommitBlockToLedger, hpopped, htop]
      rw [hresult]
      exact .advance (step_advance (.inr hfree) hadvance) (.refl _)
  | some b =>
      by_cases hnumber : b.number = popped.config.nextBlock
      · have hadvance : CommitFrame.tryToCommit.advance s =
            some (popped.setCommitQueue
              (P.pop popped.downloadingQueue.commitQueue),
                [.checkAndCommit b, .unlock]) := by
          simp only [CommitFrame.advance, hpopped, htop, if_pos hnumber]
        have hresult : tryToCommitBlockToLedger none s =
            checkAndCommitBlock none b (popped.setCommitQueue
              (P.pop popped.downloadingQueue.commitQueue)) := by
          simp only [tryToCommitBlockToLedger, hpopped, htop,
            if_pos hnumber]
        rw [hresult]
        exact .advance (step_advance (.inr hfree) hadvance)
          ((runsLater_checkAndCommit b _).trans
            (.advance (step_advance (.inl rfl) rfl) (.refl _)))
      · have hadvance : CommitFrame.tryToCommit.advance s =
            some (popped, []) := by
          simp only [CommitFrame.advance, hpopped, htop, if_neg hnumber]
        have hresult : tryToCommitBlockToLedger none s = popped := by
          simp only [tryToCommitBlockToLedger, hpopped, htop,
            if_neg hnumber]
        rw [hresult]
        exact .advance (step_advance (.inr hfree) hadvance) (.refl _)

theorem runsLater_updateCommitQueue (b : Block) (s : BlockSync P) :
    RunsLater ⟨s, [.pushCommit b, .tryToCommit]⟩
      ⟨updateCommitQueue none b s, []⟩ :=
  .advance rfl (runsLater_tryToCommit List.not_mem_nil _)

theorem runsLater_commitBlock (b : Block) (s : BlockSync P) :
    RunsLater ⟨s, .commitBlock b :: rest⟩ ⟨commitBlock none b s, rest⟩ := by
  by_cases hempty : b.transactionsSize = 0
  · have hadvance : (CommitFrame.commitBlock b).advance s =
        some (s, [.callCommit b, .callStore b]) := by
      simp only [CommitFrame.advance, if_pos hempty]
    rw [commitBlock, if_pos hempty]
    exact .advance (step_advance (.inl rfl) hadvance)
      (.commit rfl (.store rfl (.refl _)))
  · have hadvance : (CommitFrame.commitBlock b).advance s =
        some (s, [.callStore b]) := by
      simp only [CommitFrame.advance, if_neg hempty]
    rw [commitBlock, if_neg hempty]
    exact .advance (step_advance (.inl rfl) hadvance) (.store rfl (.refl _))

/-- The callback of `asyncCheckBlock`. -/
theorem runsLater_onCheck (b : Block) (answer : Except Error Bool)
    (s : BlockSync P) :
    RunsLater ⟨s, .onCheck b answer :: rest⟩
      ⟨onCheckBlock none b answer s, rest⟩ := by
  rcases answer with e | _ | _
  · exact .advance rfl (.refl _)
  · exact .advance rfl (.refl _)
  · exact .advance rfl (runsLater_commitBlock b _)

/-- The callback of `asyncStoreTransactions`. -/
theorem runsLater_onStore (b : Block) (error : Option Error)
    (s : BlockSync P) :
    RunsLater ⟨s, .onStore b error :: rest⟩
      ⟨onStoreTransactions none b error s, rest⟩ := by
  rcases error with _ | e
  · exact .advance rfl (.commit rfl (.refl _))
  · exact .advance rfl (.refl _)

/-- `onNewBlock` and the attempt to commit behind it, on a stack that does not
hold the lock. -/
theorem runsLater_newBlock (hfree : .unlock ∉ rest) (l : LedgerConfig)
    (s : BlockSync P) :
    RunsLater ⟨s, .newBlock (.resetConfig l) :: .tryToCommit :: rest⟩
      ⟨tryToCommitBlockToLedger none (s.onNewBlock l), rest⟩ := by
  have hbelow : .unlock ∉ CommitFrame.tryToCommit :: rest := by
    simp [hfree]
  exact .advance rfl (.advance rfl (.advance rfl
    (.advance (step_advance (.inr hbelow) rfl)
      (runsLater_tryToCommit hfree _))))

/-- The callback of `scheduler->commitBlock`, on a stack that does not hold
the lock. -/
theorem runsLater_onCommit (hfree : .unlock ∉ rest) (b : Block)
    (answer : Except Error LedgerConfig) (s : BlockSync P) :
    RunsLater ⟨s, .onCommit b answer :: rest⟩
      ⟨onCommitBlock none b answer s, rest⟩ := by
  rcases answer with e | l
  · exact .advance rfl (.refl _)
  · exact .advance rfl (.advance rfl (runsLater_newBlock hfree _ _))

end Later

end CommitStack

/-! ## Where the lock is acquired -/

namespace CommitFrame

/-- Above a guard there are harmless functions only. -/
def UnderGuard (f g : CommitFrame) : Prop := g = .unlock → f.Harmless

theorem not_harmless_of_acquires {f : CommitFrame}
    (h : f.acquires = true) : ¬ f.Harmless := by
  intro hharmless
  cases f with
  | pushCommit b => exact hharmless
  | tryToCommit => exact hharmless
  | newBlock c => exact hharmless
  | _ => cases h

theorem pairwise_of_unlock_not_mem {fs : List CommitFrame}
    (h : .unlock ∉ fs) : fs.Pairwise UnderGuard :=
  List.pairwise_of_forall_mem_list fun _ _ _ hg heq => absurd (heq ▸ hg) h

theorem underGuard_nil (f : CommitFrame) :
    ([] : List CommitFrame).Pairwise UnderGuard ∧
      (f.Harmless → ∀ g ∈ ([] : List CommitFrame), g.Harmless) :=
  ⟨.nil, fun _ => List.forall_mem_nil _⟩

theorem underGuard_singleton (f : CommitFrame) {g : CommitFrame}
    (hg : g.Harmless) :
    [g].Pairwise UnderGuard ∧ (f.Harmless → ∀ g' ∈ [g], g'.Harmless) :=
  ⟨List.pairwise_singleton _ _, fun _ => List.forall_mem_singleton.mpr hg⟩

/-- A harmless function is followed by harmless ones, and no function leaves a
harmful one above a guard of its own. -/
theorem advance_underGuard {s t : BlockSync P} {f : CommitFrame}
    {fs : List CommitFrame} (h : f.advance s = some (t, fs)) :
    fs.Pairwise UnderGuard ∧ (f.Harmless → ∀ g ∈ fs, g.Harmless) := by
  cases f with
  | pushCommit b =>
      obtain ⟨-, rfl⟩ := Prod.mk.inj (Option.some.inj h)
      exact underGuard_nil _
  | tryToCommit =>
      refine ⟨?_, fun hf => hf.elim⟩
      rw [advance] at h
      split at h
      · obtain ⟨-, rfl⟩ := Prod.mk.inj (Option.some.inj h)
        exact .nil
      · split_ifs at h
        · obtain ⟨-, rfl⟩ := Prod.mk.inj (Option.some.inj h)
          exact List.pairwise_pair.mpr fun _ => trivial
        · obtain ⟨-, rfl⟩ := Prod.mk.inj (Option.some.inj h)
          exact .nil
  | unlock =>
      obtain ⟨-, rfl⟩ := Prod.mk.inj (Option.some.inj h)
      exact underGuard_nil _
  | checkAndCommit b =>
      rw [advance] at h
      split_ifs at h
      · obtain ⟨-, rfl⟩ := Prod.mk.inj (Option.some.inj h)
        exact underGuard_nil _
      · obtain ⟨-, rfl⟩ := Prod.mk.inj (Option.some.inj h)
        exact underGuard_singleton _ trivial
  | callCheck b => cases h
  | onCheck b a =>
      rcases a with e | _ | _
      · obtain ⟨-, rfl⟩ := Prod.mk.inj (Option.some.inj h)
        exact underGuard_nil _
      · obtain ⟨-, rfl⟩ := Prod.mk.inj (Option.some.inj h)
        exact underGuard_nil _
      · obtain ⟨-, rfl⟩ := Prod.mk.inj (Option.some.inj h)
        exact underGuard_singleton _ trivial
  | commitBlock b =>
      obtain ⟨-, rfl⟩ := Prod.mk.inj (Option.some.inj h)
      split_ifs
      · refine ⟨List.pairwise_pair.mpr fun _ => trivial, fun _ g hg => ?_⟩
        rcases List.mem_pair.mp hg with rfl | rfl <;> trivial
      · exact underGuard_singleton _ trivial
  | callStore b => cases h
  | onStore b e =>
      rcases e with _ | e
      · obtain ⟨-, rfl⟩ := Prod.mk.inj (Option.some.inj h)
        exact underGuard_singleton _ trivial
      · obtain ⟨-, rfl⟩ := Prod.mk.inj (Option.some.inj h)
        exact underGuard_nil _
  | callCommit b => cases h
  | onCommit b a =>
      rcases a with e | l
      · obtain ⟨-, rfl⟩ := Prod.mk.inj (Option.some.inj h)
        exact underGuard_nil _
      · obtain ⟨-, rfl⟩ := Prod.mk.inj (Option.some.inj h)
        exact ⟨List.pairwise_singleton _ _, fun hf => hf.elim⟩
  | finalize b l =>
      obtain ⟨-, rfl⟩ := Prod.mk.inj (Option.some.inj h)
      refine ⟨pairwise_of_unlock_not_mem ?_, fun hf => hf.elim⟩
      simp
  | newBlock c =>
      obtain ⟨⟨node, next⟩, -, heq⟩ := Option.map_eq_some_iff.mp h
      obtain ⟨-, rfl⟩ := Prod.mk.inj heq
      refine ⟨pairwise_of_unlock_not_mem ?_, fun hf => hf.elim⟩
      split <;> simp

end CommitFrame

namespace CommitStack

variable {c d : CommitStack P}

/-- Above each guard on the stack there are harmless functions only. -/
def InOrder (c : CommitStack P) : Prop :=
  c.stack.Pairwise CommitFrame.UnderGuard

/-- The scheduler does not answer a commit inline with success on a stack that
holds `x_commitQueue`. -/
def AnswersLater (c : CommitStack P) : Input P → Prop
  | .commitBlock (some (.ok _)) => .unlock ∉ c.stack
  | _ => True

theorem InOrder.not_deadlocked (h : c.InOrder) : ¬ c.Deadlocked := by
  rintro ⟨f, rest, hstack, hacquires, hunlock⟩
  rw [InOrder, hstack] at h
  have hharmless := (List.pairwise_cons.mp h).1 _ hunlock rfl
  exact CommitFrame.not_harmless_of_acquires hacquires hharmless

/-- A call that is answered later, or inline to a harmless function. -/
theorem inOrder_call {α : Type} {callback : Callback}
    {onAnswer : α → CommitFrame} {s : BlockSync P} {f : CommitFrame}
    {rest : List CommitFrame} {answer : Option α}
    (h : (f :: rest).Pairwise CommitFrame.UnderGuard)
    (hanswer : ∀ a, answer = some a → (onAnswer a).Harmless) :
    InOrder (call callback onAnswer s rest answer) := by
  have hrest := (List.pairwise_cons.mp h).2
  cases answer with
  | none => exact hrest
  | some a =>
      exact List.pairwise_cons.mpr ⟨fun _ _ _ => hanswer a rfl, hrest⟩

theorem unlock_not_mem_enter {s t : BlockSync P} {entry : Entry}
    {stack : List CommitFrame} (h : enter s entry = some (t, stack)) :
    .unlock ∉ stack := by
  cases entry with
  | tryToCommit =>
      obtain ⟨-, rfl⟩ := Prod.mk.inj (Option.some.inj h)
      simp
  | updateCommitQueue b =>
      obtain ⟨-, rfl⟩ := Prod.mk.inj (Option.some.inj h)
      simp
  | newBlock l =>
      obtain ⟨-, rfl⟩ := Prod.mk.inj (Option.some.inj h)
      simp
  | asyncCheckBlockAnswer b a =>
      rw [enter] at h
      split_ifs at h
      obtain ⟨-, rfl⟩ := Prod.mk.inj (Option.some.inj h)
      simp
  | asyncStoreTransactionsAnswer b e =>
      rw [enter] at h
      split_ifs at h
      obtain ⟨-, rfl⟩ := Prod.mk.inj (Option.some.inj h)
      simp
  | commitBlockAnswer b a =>
      rw [enter] at h
      split_ifs at h
      obtain ⟨-, rfl⟩ := Prod.mk.inj (Option.some.inj h)
      simp

/-- A step leaves only harmless functions above a guard if and only if it is
no commit that succeeds inline above one. -/
theorem step_inOrder_iff {i : Input P} (hc : c.InOrder)
    (h : c.step i = some d) : d.InOrder ↔ c.AnswersLater i := by
  rw [InOrder] at hc
  cases i with
  | enter entry =>
      refine iff_of_true ?_ trivial
      rw [step] at h
      split_ifs at h
      obtain ⟨⟨node, stack⟩, hentry, rfl⟩ := Option.map_eq_some_iff.mp h
      exact CommitFrame.pairwise_of_unlock_not_mem
        (unlock_not_mem_enter hentry)
  | advance =>
      refine iff_of_true ?_ trivial
      rw [step] at h
      split at h
      · cases h
      · next f rest hstack =>
          split_ifs at h
          obtain ⟨⟨node, fs⟩, hadvance, rfl⟩ := Option.map_eq_some_iff.mp h
          rw [hstack] at hc
          obtain ⟨hfirst, hrest⟩ := List.pairwise_cons.mp hc
          obtain ⟨hfs, hharmless⟩ :=
            CommitFrame.advance_underGuard hadvance
          refine List.pairwise_append.mpr ⟨hfs, hrest, ?_⟩
          intro g hg b hb hunlock
          exact hharmless (hfirst b hb hunlock) g hg
  | asyncCheckBlock answer =>
      refine iff_of_true ?_ trivial
      rw [step] at h
      split at h
      · next b rest hstack =>
          obtain rfl := Option.some.inj h
          rw [hstack] at hc
          exact inOrder_call hc fun _ _ => trivial
      · cases h
  | asyncStoreTransactions answer =>
      refine iff_of_true ?_ trivial
      rw [step] at h
      split at h
      · next b rest hstack =>
          obtain rfl := Option.some.inj h
          rw [hstack] at hc
          exact inOrder_call hc fun _ _ => trivial
      · cases h
  | commitBlock answer =>
      rw [step] at h
      split at h
      · next b rest hstack =>
          obtain rfl := Option.some.inj h
          rw [hstack] at hc
          rcases answer with _ | e | l
          · refine iff_of_true (inOrder_call hc fun a ha => ?_) trivial
            cases ha
          · refine iff_of_true (inOrder_call hc fun a ha => ?_) trivial
            obtain rfl := Option.some.inj ha
            trivial
          · -- the callback goes on to `finalizeBlock`
            rw [AnswersLater, hstack, List.mem_cons, not_or]
            constructor
            · intro hd
              refine ⟨by simp, fun hunlock => ?_⟩
              exact (List.pairwise_cons.mp hd).1 _ hunlock rfl
            · rintro ⟨-, hfree⟩
              refine List.pairwise_cons.mpr ⟨fun g hg hunlock => ?_, ?_⟩
              · exact absurd (hunlock ▸ hg) hfree
              · exact (List.pairwise_cons.mp hc).2
      · cases h
  | others node =>
      obtain rfl := Option.some.inj h
      exact iff_of_true hc trivial

/-- A commit that succeeds inline above a guard leads to the handler's clear,
which waits for the lock, in five steps of the stack. -/
theorem exec_of_answersInline {l : LedgerConfig}
    (h : c.step (.commitBlock (some (.ok l))) = some d)
    (hlocked : .unlock ∈ c.stack) :
    ∃ e, (commitStackSystem P).exec d (List.replicate 5 .advance) = some e ∧
      e.Deadlocked := by
  rw [step] at h
  split at h
  · next b rest hstack =>
      obtain rfl := Option.some.inj h
      rw [hstack, List.mem_cons] at hlocked
      have hrest : .unlock ∈ rest := hlocked.resolve_left (by simp)
      refine ⟨_, rfl, _, _, rfl, rfl, ?_⟩
      exact List.mem_cons_of_mem _ hrest
  · cases h

/-- Where every commit that the scheduler answers inline with success is
called without the lock, no call stack waits for the lock it holds. -/
theorem run_not_deadlocked (hc : (commitStackSystem P).IsInit c)
    (is : List (Input P)) :
    ((commitStackSystem P).AllSteps AnswersLater c is →
      (commitStackSystem P).AllStates (fun c => ¬ c.Deadlocked) c is) ∧
    ((commitStackSystem P).AllStates InOrder c is ↔
      (commitStackSystem P).AllSteps AnswersLater c is) := by
  have hstart : c.InOrder := by
    have hempty : c.stack = [] := hc
    rw [InOrder, hempty]
    exact .nil
  have hexact : (commitStackSystem P).AllStates InOrder c is ↔
      (commitStackSystem P).AllSteps AnswersLater c is :=
    allStates_iff_allSteps (A := fun _ => True) (I := fun _ => True)
      (fun _ _ _ _ _ _ => trivial)
      (fun _ _ _ _ _ hc h => step_inOrder_iff hc h)
      (fun _ _ => trivial) trivial hstart
  refine ⟨fun hlater => ?_, hexact⟩
  exact (hexact.mpr hlater).mono fun c hc => hc.not_deadlocked

/-! ## Services that answer inline -/

/-- A node at height 0 whose commit queue holds block 1. -/
def sample : CommitStack sortedBlockQueue where
  node := Sample.node.setCommitQueue
    (sortedBlockQueue.push sortedBlockQueue.empty (Sample.block 0 1 1))
  stack := []

theorem isInit_sample : (commitStackSystem sortedBlockQueue).IsInit sample :=
  show sample.stack = [] from rfl

/-- The check, the store and the commit of block 1 are answered inline. -/
def answeredInline : List (Input sortedBlockQueue) :=
  [.enter .tryToCommit, .advance, .advance, .asyncCheckBlock (some (.ok true)),
    .advance, .advance, .asyncStoreTransactions (some none), .advance,
    .commitBlock (some (.ok (Sample.ledgerConfig 1)))]

/-- The new-block handler clears the commit queue below whose guard it
runs. -/
theorem inlineCommit_waits_for_own_lock :
    ∃ c, (commitStackSystem sortedBlockQueue).Reachable c ∧
      c.Deadlocked := by
  obtain ⟨c, hrun, hstack⟩ :
      ∃ c, (commitStackSystem sortedBlockQueue).exec sample
        (answeredInline ++ List.replicate 5 .advance) = some c ∧
        c.stack = [.newBlock .clearCommitQueue, .tryToCommit, .unlock] :=
    ⟨_, rfl, rfl⟩
  refine ⟨c, .of_exec isInit_sample hrun, _, _, hstack, rfl, ?_⟩
  exact List.mem_cons_of_mem _ List.mem_cons_self

/-- The check and the store are answered inline, the commit later. -/
theorem run_not_deadlocked_sample :
    (commitStackSystem sortedBlockQueue).AllStates
      (fun c => ¬ c.Deadlocked) sample
      [.enter .tryToCommit, .advance, .advance,
        .asyncCheckBlock (some (.ok true)), .advance, .advance,
        .asyncStoreTransactions (some none), .advance, .commitBlock none,
        .advance] := by
  apply (run_not_deadlocked isInit_sample _).1
  apply AllTransitions.of_inputs
  intro i hi c d
  simp only [List.mem_cons, List.not_mem_nil, or_false] at hi
  rcases hi with rfl | rfl | rfl | rfl | rfl | rfl | rfl | rfl | rfl | rfl <;>
    trivial

end CommitStack

end BcosSync
