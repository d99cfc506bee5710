import BcosSync.Serving.Asynchronous

/-!
# The order of the answers

While no request arrives and the ledger has what it is asked for, the answers
of the ledger may come in any order: what is sent in the end is always the
same, up to order, and it is what the loop of the task sends that has its
answers at once.
-/

namespace BcosSync

open MachineInt DownloadRequestQueue TransitionSystem

namespace Server

/-- Nobody asks, and the answers are those of the ledger. -/
def OfLedger (ledger : Ledger) : Input → Prop
  | .push _ _ => False
  | .answer number answer => answer = ledger.blockData number
  | _ => True

/-- The heights that are still to be answered, each as often as it will be. -/
def waiting (s : Server) : Multiset ℤ :=
  ↑s.fetching + ↑s.numbers + ↑s.reqQueue.fetched

/-- What is sent already, and what is going to be. -/
def due (ledger : Ledger) (peer : PublicPtr) (s : Server) :
    Multiset (PublicPtr × Packet) :=
  s.waiting.filterMap (ledger.reply peer) + ↑s.outbox

/-- How many steps are left: a height is fetched and answered, and a request
is taken out of the queue. -/
def stepsLeft (s : Server) : ℕ :=
  s.fetching.length + 2 * s.numbers.length +
    (2 * s.reqQueue.fetched.length + s.reqQueue.size)

/-- The state of the task before and after its loop. -/
def idle (x : BlockSync.Sending) : Server :=
  { toSending := x }

variable {ledger : Ledger} {capacity : ℕ} {peer : PublicPtr} {s t : Server}
  {i : Input}

/-! ## One step -/

/-- A step moves heights towards the outbox, and changes nothing else. -/
theorem step_due (hi : OfLedger ledger i)
    (hhas : ∀ n ∈ s.waiting, ¬ ledger.Lacks n)
    (hstep : s.step ledger.encode capacity peer i = some t) :
    t.waiting ≤ s.waiting ∧ t.due ledger peer = s.due ledger peer ∧
      t.stepsLeft < s.stepsLeft := by
  cases i with
  | push => exact hi.elim
  | topAndPop =>
      obtain ⟨hnone, r, q, hpop, rfl⟩ := step_topAndPop hstep
      have hfetched := fetched_of_some hpop
      have hsize := topAndPop_size_lt hpop
      have hsame : (Server.waiting { s with
          reqQueue := q, numbers := r.numbers }) = s.waiting := by
        simp only [waiting, hnone, hfetched, ← Multiset.coe_add,
          Multiset.coe_nil, Multiset.add_zero, Multiset.add_assoc]
      refine ⟨hsame.le, by rw [due, due, hsame], ?_⟩
      simp only [stepsLeft, hnone, hfetched, List.length_append,
        List.length_nil]
      omega
  | fetchAndSendBlock =>
      obtain ⟨k, ns, hnumbers, rfl⟩ := step_fetch hstep
      have hsame : (Server.waiting { s with
          numbers := ns, fetching := k :: s.fetching }) = s.waiting := by
        simp only [waiting, hnumbers, ← Multiset.cons_coe, Multiset.cons_add,
          Multiset.add_cons]
      refine ⟨hsame.le, by rw [due, due, hsame], ?_⟩
      simp only [stepsLeft, hnumbers, List.length_cons]
      omega
  | answer k a =>
      obtain ⟨hmem, hcases⟩ := step_answer hstep
      have hcons : s.waiting =
          k ::ₘ Server.waiting { s with fetching := s.fetching.erase k } := by
        have hperm := Multiset.coe_eq_coe.mpr (List.perm_cons_erase hmem)
        rw [waiting, hperm, ← Multiset.cons_coe, Multiset.cons_add,
          Multiset.cons_add]
        rfl
      have hlength := List.length_erase_of_mem hmem
      have hpos := List.length_pos_of_mem hmem
      have hk : ¬ ledger.Lacks k :=
        hhas k (hcons ▸ Multiset.mem_cons_self _ _)
      obtain rfl : a = ledger.blockData k := hi
      rcases hcases with ⟨e, hanswer, -⟩ | ⟨block, hanswer, hdata, rfl⟩ |
        ⟨block, data, hanswer, hdata, rfl⟩
      · exact absurd ⟨e, hanswer⟩ hk
      · have hreply : ledger.reply peer k = none := by
          rw [Ledger.reply, hanswer]
          exact congrArg (Option.map _) hdata
        refine ⟨hcons ▸ Multiset.le_cons_self _ _, ?_, ?_⟩
        · rw [due, due, hcons, Multiset.filterMap_cons_none _ _ hreply]
        · simp only [stepsLeft]
          omega
      · have hreply : ledger.reply peer k = some (peer, .blocks k data) := by
          rw [Ledger.reply, hanswer]
          exact congrArg (Option.map _) hdata
        refine ⟨hcons ▸ Multiset.le_cons_self _ _, ?_, ?_⟩
        · rw [due, due, hcons, Multiset.filterMap_cons_some _ _ _ hreply,
            Multiset.cons_add, ← Multiset.cons_coe, Multiset.add_cons]
          rfl
        · simp only [stepsLeft]
          omega

/-- While heights are waiting, something can be done. -/
theorem exists_step (h : s.waiting ≠ 0) :
    ∃ i, OfLedger ledger i ∧
      s.step ledger.encode capacity peer i ≠ none := by
  cases hfetching : s.fetching with
  | cons k ks =>
      refine ⟨.answer k (ledger.blockData k), rfl, ?_⟩
      rw [step, if_pos (hfetching ▸ List.mem_cons_self)]
      exact Option.some_ne_none _
  | nil =>
      cases hnumbers : s.numbers with
      | cons k ns =>
          refine ⟨.fetchAndSendBlock, trivial, ?_⟩
          rw [step, hnumbers]
          exact Option.some_ne_none _
      | nil =>
          refine ⟨.topAndPop, trivial, fun hnone => h ?_⟩
          rw [step, if_pos hnumbers, Option.map_eq_none_iff] at hnone
          rw [waiting, hfetching, hnumbers, fetched, drain_of_none hnone]
          rfl

/-! ## Whole runs -/

theorem exec_due {is : List Input} (his : ∀ i ∈ is, OfLedger ledger i)
    (hhas : ∀ n ∈ s.waiting, ¬ ledger.Lacks n)
    (hrun : (system ledger.encode capacity peer).exec s is = some t) :
    t.waiting ≤ s.waiting ∧ t.due ledger peer = s.due ledger peer ∧
      is.length + t.stepsLeft ≤ s.stepsLeft := by
  induction is generalizing s with
  | nil =>
      obtain rfl := Option.some.inj hrun
      exact ⟨le_rfl, rfl, (Nat.zero_add _).le⟩
  | cons i is ih =>
      obtain ⟨u, hu, hrest⟩ := exists_of_exec_cons hrun
      obtain ⟨hi, his⟩ := List.forall_mem_cons.mp his
      obtain ⟨hwaiting, hdue, hleft⟩ := step_due hi hhas hu
      obtain ⟨hwaiting', hdue', hleft'⟩ := ih his
        (fun n hn => hhas n (Multiset.mem_of_le hwaiting hn)) hrest
      refine ⟨hwaiting'.trans hwaiting, hdue'.trans hdue, ?_⟩
      rw [List.length_cons]
      omega

theorem due_of_waiting (h : s.waiting = 0) :
    s.due ledger peer = ↑s.outbox := by
  rw [due, h, Multiset.filterMap_zero, Multiset.zero_add]

/-- Two runs that leave nothing waiting send the same, up to order. -/
theorem outbox_perm {u : Server} {is js : List Input}
    (hhas : ∀ n ∈ s.waiting, ¬ ledger.Lacks n)
    (his : ∀ i ∈ is, OfLedger ledger i) (hjs : ∀ j ∈ js, OfLedger ledger j)
    (ht : (system ledger.encode capacity peer).exec s is = some t)
    (hu : (system ledger.encode capacity peer).exec s js = some u)
    (hdone : t.waiting = 0) (hdone' : u.waiting = 0) :
    t.outbox.Perm u.outbox := by
  have hdue := (exec_due his hhas ht).2.1
  have hdue' := (exec_due hjs hhas hu).2.1
  rw [due_of_waiting hdone] at hdue
  rw [due_of_waiting hdone'] at hdue'
  exact Multiset.coe_eq_coe.mp (hdue.trans hdue'.symm)

/-! ## A ledger that answers at once -/

section Loop

variable {x y : BlockSync.Sending}

variable (ledger capacity peer) in
/-- The `for` loop is a run in which each call is answered at once. -/
theorem leads_fetchAndSendBlocks (ns : List ℤ) (x : BlockSync.Sending) :
    (system ledger.encode capacity peer).Leads (OfLedger ledger)
      { idle x with numbers := ns }
      (· = idle (BlockSync.fetchAndSendBlocks ledger capacity peer ns x)) := by
  induction ns generalizing x with
  | nil => exact .refl rfl
  | cons n ns ih =>
      have hfetch : (system ledger.encode capacity peer).step
          { idle x with numbers := n :: ns } .fetchAndSendBlock =
            some { idle x with numbers := ns, fetching := [n] } := rfl
      have hanswer : (system ledger.encode capacity peer).step
          { idle x with numbers := ns, fetching := [n] }
            (.answer n (ledger.blockData n)) =
          some { idle (BlockSync.fetchAndSendBlock ledger capacity peer n x)
            with numbers := ns } := by
        have herase : [n].erase n = [] := List.erase_cons_head n []
        refine (if_pos List.mem_cons_self).trans (congrArg some ?_)
        rw [callback, herase]
        rfl
      refine Leads.step (i := .fetchAndSendBlock) trivial hfetch ?_
      exact Leads.step (i := .answer n (ledger.blockData n)) rfl hanswer
        (ih _)

/-- So is the loop over the queue. -/
theorem leads_loop {fuel : ℕ}
    (hloop : WhileLoop.run (BlockSync.serveRound ledger capacity peer) fuel x =
      some y) :
    (system ledger.encode capacity peer).Leads (OfLedger ledger) (idle x)
      (· = idle y) := by
  refine WhileLoop.run_induction (R := fun x y =>
    (system ledger.encode capacity peer).Leads (OfLedger ledger) (idle x)
      (· = idle y)) (fun x _ => .refl rfl) ?_ hloop
  intro x y z hround ih
  obtain ⟨r, q, hpop, rfl⟩ := BlockSync.serveRound_eq_some hround
  have hstep : (idle x).step ledger.encode capacity peer .topAndPop =
      some { idle { x with reqQueue := q } with numbers := r.numbers } := by
    have hnumbers : (idle x).numbers = [] := rfl
    rw [step, if_pos hnumbers]
    exact congrArg (Option.map _) hpop
  refine Leads.step (i := .topAndPop) trivial hstep ?_
  refine (leads_fetchAndSendBlocks ledger capacity peer r.numbers
    { x with reqQueue := q }).trans ?_
  rintro _ rfl
  exact ih

/-- While nobody asks and the ledger has the heights of the ranges that the
queue drains to, the task ends, whatever the order of the answers: it takes a
bounded number of steps, can go on until nothing is waiting, and has then sent
what the loop sends that has its answers at once. -/
theorem run_agrees_with_loop {is : List Input}
    (hserves : ledger.Serves x.reqQueue) (his : ∀ i ∈ is, OfLedger ledger i)
    (hrun : (system ledger.encode capacity peer).exec (idle x) is = some t) :
    is.length ≤ 2 * x.reqQueue.fetched.length + x.reqQueue.size ∧
      ((∀ i, OfLedger ledger i →
          t.step ledger.encode capacity peer i = none) →
        ∃ fuel y, WhileLoop.run (BlockSync.serveRound ledger capacity peer)
          fuel x = some y ∧ t.outbox.Perm y.outbox) := by
  have hhas : ∀ n ∈ (idle x).waiting, ¬ ledger.Lacks n := by
    have hwaiting : (idle x).waiting = ↑x.reqQueue.fetched := rfl
    rw [hwaiting]
    exact BlockSync.serves_iff_fetched.mp hserves
  have hleft : (idle x).stepsLeft =
      2 * x.reqQueue.fetched.length + x.reqQueue.size := Nat.zero_add _
  refine ⟨?_, fun hstuck => ?_⟩
  · have hlength := (exec_due his hhas hrun).2.2
    omega
  · have hfinishes : WhileLoop.Finishes
        (BlockSync.serveRound ledger capacity peer) x :=
      BlockSync.finishes_of_serves hserves x.outbox
    obtain ⟨fuel, y, hloop⟩ := hfinishes
    obtain ⟨js, u, hjs, hu, rfl⟩ := leads_loop hloop
    refine ⟨fuel, y, hloop, outbox_perm hhas his hjs hrun hu ?_ ?_⟩
    · by_contra hwaiting
      obtain ⟨i, hi, hsome⟩ := exists_step hwaiting
      exact hsome (hstuck i hi)
    · have hempty := BlockSync.serveRound_eq_none_iff.mp
        (WhileLoop.body_of_run hloop)
      have hfetched : y.reqQueue.fetched = [] := by
        rw [fetched, drain_of_none (topAndPop_eq_none_iff.mpr hempty)]
        rfl
      rw [waiting]
      exact congrArg (fun ns : List ℤ => (0 + 0 + ↑ns : Multiset ℤ)) hfetched

/-- A peer has asked twice for block 0. -/
def asked : BlockSync.Sending :=
  ⟨(DownloadRequestQueue.new.push 2 0 1).push 2 0 1, []⟩

theorem run_agrees_with_loop_sample :
    ∃ fuel y, WhileLoop.run
        (BlockSync.serveRound BlockSync.genesisLedger 2 Sample.peer)
        fuel asked = some y ∧
      List.Perm [(Sample.peer, .blocks 0 [])] y.outbox := by
  have hfetched : asked.reqQueue.fetched = [0] := by decide
  have hserves : BlockSync.genesisLedger.Serves asked.reqQueue := by
    rw [BlockSync.serves_iff_fetched, hfetched]
    rintro n hn ⟨e, he⟩
    rw [List.mem_singleton.mp hn] at he
    cases he
  have his : ∀ i ∈ [.topAndPop, .fetchAndSendBlock,
      .answer 0 (BlockSync.genesisLedger.blockData 0)],
      OfLedger BlockSync.genesisLedger i := by
    simp only [List.forall_mem_cons, OfLedger]
    exact ⟨trivial, trivial, trivial, fun _ hi => absurd hi List.not_mem_nil⟩
  have hrun : (system BlockSync.genesisLedger.encode 2 Sample.peer).exec
      (idle asked) [.topAndPop, .fetchAndSendBlock,
        .answer 0 (BlockSync.genesisLedger.blockData 0)] =
      some (idle ⟨.new, [(Sample.peer, .blocks 0 [])]⟩) := rfl
  refine (run_agrees_with_loop hserves his hrun).2 fun i hi => ?_
  cases i with
  | push => exact hi.elim
  | topAndPop => rfl
  | fetchAndSendBlock => rfl
  | answer k a =>
      rw [step]
      exact if_neg List.not_mem_nil

end Loop

end Server

end BcosSync
