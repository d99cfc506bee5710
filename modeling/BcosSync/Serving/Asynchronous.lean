import BcosSync.Serving.Answers
import BcosSync.Support.TransitionSystem
import Mathlib.Data.Multiset.Count
import Mathlib.Data.List.Nodup

/-!
# A ledger that answers later

The ledger may answer long after `fetchAndSendBlock` has called it, in any
order, while the task goes on, and while requests arrive.  What is left of one
request queue is then in three places: the queue, the `for` loop of the task,
and the calls that are not answered yet.

Between these places no height is lost, and none is sent more often than it
was asked for.
-/

namespace BcosSync

open MachineInt DownloadRequestQueue

/-! ## Heights in a queue -/

namespace DownloadRequestQueue

variable {q q' : DownloadRequestQueue} {r : DownloadRequest} {n : ℤ}

/-- How many requests of the queue ask for height `n`. -/
def asking (q : DownloadRequestQueue) (n : ℤ) : ℕ :=
  q.requests.countP fun r => r.fromNumber ≤ n ∧ n < r.stop

theorem asking_pos : 0 < q.asking n ↔ q.Wants n :=
  Multiset.countP_pos

theorem InRange.push (h : q.InRange) {number size : ℤ} (hnumber : 0 ≤ number)
    (hsize : 0 ≤ size) (hlt : number + size < 2 ^ 63) (capacity : ℕ) :
    (q.push capacity number size).InRange := by
  intro r hr
  rcases Multiset.mem_cons.mp (Multiset.mem_of_le
    (requests_push_le capacity number size q) hr) with rfl | hr
  · obtain ⟨hfrom, hstop⟩ := @BlockSync.make_inRange (number, size)
      ⟨hnumber, hsize, hlt⟩
    rw [hfrom, hstop]
    exact ⟨hnumber, hlt⟩
  · exact h r hr

theorem asking_push_le {number size : ℤ} (hnumber : 0 ≤ number)
    (hsize : 0 ≤ size) (hlt : number + size < 2 ^ 63) (capacity : ℕ) :
    (q.push capacity number size).asking n ≤
      q.asking n + if number ≤ n ∧ n < number + size then 1 else 0 := by
  obtain ⟨hfrom, hstop⟩ := @BlockSync.make_inRange (number, size)
    ⟨hnumber, hsize, hlt⟩
  refine (Multiset.countP_le_of_le _
    (requests_push_le capacity number size q)).trans ?_
  rw [Multiset.countP_cons, hfrom, hstop]
  exact le_rfl

/-- Pushing takes nothing out of the queue. -/
theorem Wants.push (h : q.Wants n) (capacity : ℕ) (number size : ℤ) :
    (q.push capacity number size).Wants n := by
  obtain ⟨r, hr, hin⟩ := h
  refine ⟨r, ?_, hin⟩
  unfold DownloadRequestQueue.push
  split_ifs
  · exact hr
  · have helems : (DownloadRequestQueue.mk (requestQueue.push q.reqQueue
        (DownloadRequest.make number size))).requests =
          DownloadRequest.make number size ::ₘ q.requests :=
      requestQueue.elems_push _ _
    rw [helems]
    exact Multiset.mem_cons_of_mem hr

/-- The heights of a merged request, in exact integers. -/
theorem InRange.mem_numbers (h : q.InRange)
    (hpop : q.topAndPop = some (r, q')) :
    n ∈ r.numbers ↔ r.fromNumber ≤ n ∧ n < r.stop := by
  rw [DownloadRequest.mem_numbers,
    DownloadRequest.numberLimit_eq (h.topAndPop hpop).2.1]

theorem nodup_numbers (r : DownloadRequest) : r.numbers.Nodup :=
  List.nodup_range.map fun a b hab => by omega

/-- A merge takes every request for its heights out of the queue. -/
theorem InRange.asking_topAndPop (h : q.InRange)
    (hpop : q.topAndPop = some (r, q')) (n : ℤ) :
    q'.asking n + r.numbers.count n ≤ q.asking n := by
  obtain ⟨-, -, hbehind, hcovers⟩ := h.topAndPop hpop
  by_cases hn : n ∈ r.numbers
  · have hin := (h.mem_numbers hpop).mp hn
    have hnone : q'.asking n = 0 := by
      refine Nat.eq_zero_of_not_pos fun hpos => ?_
      obtain ⟨r', hr', hlow, -⟩ := asking_pos.mp hpos
      have hlt := hbehind r' hr'
      omega
    have hsome : 0 < q.asking n := asking_pos.mpr ((hcovers n).mpr (.inl hin))
    have hone := List.nodup_iff_count_le_one.mp (nodup_numbers r) n
    omega
  · rw [List.count_eq_zero_of_not_mem hn, Nat.add_zero]
    exact Multiset.countP_le_of_le _ (topAndPop_requests_lt hpop).le

end DownloadRequestQueue

/-! ## The system -/

/-- One request queue: the heights that the loop has still to fetch of the
request it has popped, and the calls that the ledger has not answered. -/
structure Server extends BlockSync.Sending where
  numbers : List ℤ := []
  fetching : List ℤ := []

namespace Server

/-- What can happen around the queue: a request of the peer, a round of the
`while` loop, one of the `for` loop, an answer of the ledger. -/
inductive Input
  | push (number size : ℤ)
  | topAndPop
  | fetchAndSendBlock
  | answer (number : ℤ) (answer : Except Error BlockData)

/-- The node has only now started, with a queue of its own for the peer. -/
def new : Server where
  reqQueue := DownloadRequestQueue.new
  outbox := []

section Step

variable (encode : BlockData → Option Bytes) (capacity : ℕ) (peer : PublicPtr)

/-- The callback of `asyncGetBlockDataByNumber`, for a call that is
outstanding. -/
def callback (number : ℤ) (answer : Except Error BlockData) (s : Server) :
    Server where
  toSending := BlockSync.fetchAndSendBlock ⟨fun _ => answer, encode⟩ capacity
    peer number s.toSending
  numbers := s.numbers
  fetching := s.fetching.erase number

def step (s : Server) : Input → Option Server
  | .push number size =>
      some { s with reqQueue := s.reqQueue.push capacity number size }
  | .topAndPop =>
      if s.numbers = [] then
        s.reqQueue.topAndPop.map fun (blocksReq, reqQueue) =>
          { s with reqQueue := reqQueue, numbers := blocksReq.numbers }
      else none
  | .fetchAndSendBlock =>
      match s.numbers with
      | [] => none
      | number :: numbers =>
          some { s with
            numbers := numbers
            fetching := number :: s.fetching }
  | .answer number answer =>
      if number ∈ s.fetching then
        some (s.callback encode capacity peer number answer)
      else none

/-- The runs around one queue. -/
def system : TransitionSystem Server Input where
  IsInit s := s = new
  step := step encode capacity peer

end Step

/-- Requests start at no negative height and do not overflow. -/
def Asks : Input → Prop
  | .push number size => 0 ≤ number ∧ 0 ≤ size ∧ number + size < 2 ^ 63
  | _ => True

instance : DecidablePred Asks
  | .push _ _ => inferInstanceAs (Decidable (_ ∧ _))
  | .topAndPop | .fetchAndSendBlock | .answer _ _ => isTrue trivial

/-- The input is a request for height `n`. -/
def AsksFor (n : ℤ) : Input → Bool
  | .push number size => number ≤ n ∧ n < number + size
  | _ => false

/-- The packet brings the block of height `n`. -/
def Brings (n : ℤ) (m : PublicPtr × Packet) : Bool :=
  match m.2 with
  | .blocks number _ => number = n
  | _ => false

/-- Height `n` is still to be answered. -/
def Owes (s : Server) (n : ℤ) : Prop :=
  s.reqQueue.Wants n ∨ n ∈ s.numbers ∨ n ∈ s.fetching

/-- How often height `n` has been sent, and how often it will be at most. -/
def copies (s : Server) (n : ℤ) : ℕ :=
  s.outbox.countP (Brings n) + s.fetching.count n + s.numbers.count n +
    s.reqQueue.asking n

/-- Nothing around the queue overflows. -/
structure InRange (s : Server) : Prop where
  reqQueue : s.reqQueue.InRange
  numbers : ∀ n ∈ s.numbers, 0 ≤ n ∧ n + 1 < 2 ^ 63
  fetching : ∀ n ∈ s.fetching, 0 ≤ n ∧ n + 1 < 2 ^ 63

variable {encode : BlockData → Option Bytes} {capacity : ℕ} {peer : PublicPtr}
  {s t : Server} {i : Input} {n : ℤ}

/-! ## What one step does -/

/-- A round of the `while` loop. -/
theorem step_topAndPop
    (hstep : s.step encode capacity peer .topAndPop = some t) :
    s.numbers = [] ∧ ∃ r q, s.reqQueue.topAndPop = some (r, q) ∧
      t = { s with reqQueue := q, numbers := r.numbers } := by
  simp only [step] at hstep
  split_ifs at hstep with hnone
  obtain ⟨⟨r, q⟩, hpop, rfl⟩ := Option.map_eq_some_iff.mp hstep
  exact ⟨hnone, r, q, hpop, rfl⟩

/-- A round of the `for` loop. -/
theorem step_fetch
    (hstep : s.step encode capacity peer .fetchAndSendBlock = some t) :
    ∃ k ns, s.numbers = k :: ns ∧
      t = { s with numbers := ns, fetching := k :: s.fetching } := by
  simp only [step] at hstep
  split at hstep
  · cases hstep
  · next k ns hnumbers =>
      exact ⟨k, ns, hnumbers, (Option.some.inj hstep).symm⟩

/-- An answer is an error and the height is asked for again, or it is a block
that is skipped or sent. -/
theorem step_answer {k : ℤ} {a : Except Error BlockData}
    (hstep : s.step encode capacity peer (.answer k a) = some t) :
    k ∈ s.fetching ∧
      ((∃ e, a = .error e ∧
          t = { s with
            reqQueue := s.reqQueue.push capacity k 1
            fetching := s.fetching.erase k }) ∨
        (∃ block, a = .ok block ∧ encode block = none ∧
          t = { s with fetching := s.fetching.erase k }) ∨
        ∃ block data, a = .ok block ∧ encode block = some data ∧
          t = { s with
            outbox := (peer, .blocks k data) :: s.outbox
            fetching := s.fetching.erase k }) := by
  simp only [step] at hstep
  split_ifs at hstep with hmem
  obtain rfl := Option.some.inj hstep
  refine ⟨hmem, ?_⟩
  unfold callback BlockSync.fetchAndSendBlock
  cases a with
  | error e => exact .inl ⟨e, rfl, rfl⟩
  | ok block =>
      dsimp only
      cases hdata : encode block with
      | none => exact .inr (.inl ⟨block, rfl, hdata, rfl⟩)
      | some data => exact .inr (.inr ⟨block, data, rfl, hdata, rfl⟩)

/-- The heights that are still to be answered stay in range. -/
theorem InRange.step (h : s.InRange) (hi : Asks i)
    (hstep : s.step encode capacity peer i = some t) : t.InRange := by
  cases i with
  | push number size =>
      obtain rfl := Option.some.inj hstep
      obtain ⟨hnumber, hsize, hlt⟩ := hi
      exact ⟨h.reqQueue.push hnumber hsize hlt capacity, h.numbers, h.fetching⟩
  | topAndPop =>
      obtain ⟨-, r, q, hpop, rfl⟩ := step_topAndPop hstep
      obtain ⟨hlow, hstop, -, -⟩ := h.reqQueue.topAndPop hpop
      refine ⟨h.reqQueue.mono hpop, fun k hk => ?_, h.fetching⟩
      have hin := (h.reqQueue.mem_numbers hpop).mp hk
      omega
  | fetchAndSendBlock =>
      obtain ⟨k, ns, hnumbers, rfl⟩ := step_fetch hstep
      obtain ⟨hk, hns⟩ := List.forall_mem_cons.mp (hnumbers ▸ h.numbers)
      exact ⟨h.reqQueue, hns, List.forall_mem_cons.mpr ⟨hk, h.fetching⟩⟩
  | answer k a =>
      obtain ⟨hmem, hcases⟩ := step_answer hstep
      have hk := h.fetching k hmem
      have hrest : ∀ n ∈ s.fetching.erase k, 0 ≤ n ∧ n + 1 < 2 ^ 63 :=
        fun n hn => h.fetching n (List.mem_of_mem_erase hn)
      rcases hcases with ⟨e, -, rfl⟩ | ⟨block, -, -, rfl⟩ |
        ⟨block, data, -, -, rfl⟩
      · exact ⟨h.reqQueue.push hk.1 zero_le_one hk.2 capacity, h.numbers,
          hrest⟩
      · exact ⟨h.reqQueue, h.numbers, hrest⟩
      · exact ⟨h.reqQueue, h.numbers, hrest⟩

theorem inRange_new : new.InRange :=
  ⟨fun _ hr => absurd hr (Multiset.notMem_zero _),
    fun _ hn => absurd hn List.not_mem_nil,
    fun _ hn => absurd hn List.not_mem_nil⟩

theorem reachable_inRange
    (h : (system encode capacity peer).ReachableBy Asks s) : s.InRange :=
  h.invariant (fun _ hs => hs ▸ inRange_new)
    fun _ _ _ hi hs hstep => hs.step hi hstep

/-! ## Nothing is sent too often -/

theorem count_erase_of_mem {ns : List ℤ} {k : ℤ} (hk : k ∈ ns) (n : ℤ) :
    (ns.erase k).count n + (if k = n then 1 else 0) = ns.count n := by
  rw [(List.perm_cons_erase hk).count_eq n, List.count_cons]
  simp only [beq_iff_eq]

/-- Only a request for the height lets its copies grow: an answer, an error
included, takes one of them off the calls that are outstanding. -/
theorem copies_step (h : s.InRange) (hi : Asks i)
    (hstep : s.step encode capacity peer i = some t) (n : ℤ) :
    t.copies n ≤ s.copies n + if AsksFor n i then 1 else 0 := by
  cases i with
  | push number size =>
      obtain rfl := Option.some.inj hstep
      obtain ⟨hnumber, hsize, hlt⟩ := hi
      have hasking := asking_push_le (q := s.reqQueue) (n := n) hnumber hsize
        hlt capacity
      simp only [copies, AsksFor, decide_eq_true_eq]
      omega
  | topAndPop =>
      obtain ⟨hnone, r, q, hpop, rfl⟩ := step_topAndPop hstep
      have hasking := h.reqQueue.asking_topAndPop hpop n
      simp only [copies, hnone, List.count_nil]
      omega
  | fetchAndSendBlock =>
      obtain ⟨k, ns, hnumbers, rfl⟩ := step_fetch hstep
      simp only [copies, hnumbers, List.count_cons]
      omega
  | answer k a =>
      obtain ⟨hmem, hcases⟩ := step_answer hstep
      have hcount := count_erase_of_mem hmem n
      rcases hcases with ⟨e, -, rfl⟩ | ⟨block, -, -, rfl⟩ |
        ⟨block, data, -, -, rfl⟩
      · have hk := h.fetching k hmem
        have hasking := asking_push_le (q := s.reqQueue) (n := n) hk.1
          zero_le_one hk.2 capacity
        have hone : k ≤ n ∧ n < k + 1 ↔ k = n := by omega
        simp only [hone] at hasking
        simp only [copies]
        omega
      · simp only [copies]
        omega
      · have hbrings : Brings n (peer, .blocks k data) = decide (k = n) := rfl
        simp only [copies, List.countP_cons, hbrings, decide_eq_true_eq]
        omega

theorem copies_exec {is : List Input} (h : s.InRange)
    (hA : ∀ i ∈ is, Asks i)
    (hrun : (system encode capacity peer).exec s is = some t) (n : ℤ) :
    t.copies n ≤ s.copies n + is.countP (AsksFor n) := by
  induction is generalizing s with
  | nil =>
      obtain rfl := Option.some.inj hrun
      exact Nat.le_add_right _ _
  | cons i is ih =>
      obtain ⟨u, hu, hrest⟩ := TransitionSystem.exists_of_exec_cons hrun
      obtain ⟨hi, his⟩ := List.forall_mem_cons.mp hA
      have hfirst := copies_step h hi hu n
      have hlast := ih (h.step hi hu) his hrest
      rw [List.countP_cons]
      omega

/-- However late and in whatever order the ledger answers, and however often
it fails, no height is sent more often than it has been asked for. -/
theorem run_sends_no_more {is : List Input} (hA : ∀ i ∈ is, Asks i)
    (hrun : (system encode capacity peer).exec new is = some t) (n : ℤ) :
    t.outbox.countP (Brings n) ≤ is.countP (AsksFor n) := by
  have hcopies := copies_exec inRange_new hA hrun n
  have hzero : new.copies n = 0 := rfl
  simp only [copies] at hcopies hzero
  omega

/-- A peer asks twice for block 0; the ledger fails once and then has it. -/
def failingOnce : List Input :=
  [.push 0 1, .push 0 1, .topAndPop, .fetchAndSendBlock,
    .answer 0 (.error ⟨-1, "busy"⟩), .topAndPop, .fetchAndSendBlock,
    .answer 0 (.ok ⟨⟨0, HashType.zero, 0⟩, []⟩)]

theorem asks_failingOnce : ∀ i ∈ failingOnce, Asks i := by
  decide

theorem run_sends_no_more_sample :
    ∃ t, (system (fun _ => some []) 2 Sample.peer).exec new
        failingOnce = some t ∧
      t.outbox.countP (Brings 0) = 1 ∧
      t.outbox.countP (Brings 0) ≤ failingOnce.countP (AsksFor 0) := by
  obtain ⟨t, hrun, hcount⟩ :
      ∃ t, (system (fun _ => some []) 2 Sample.peer).exec new failingOnce =
        some t ∧ t.outbox.countP (Brings 0) = 1 := ⟨_, rfl, rfl⟩
  exact ⟨t, hrun, hcount, run_sends_no_more asks_failingOnce hrun 0⟩

/-! ## Nothing is lost -/

variable (encode capacity n) in
/-- An error for height `n` comes while the queue has room, and a block for it
can be encoded. -/
def Retains (s : Server) : Input → Prop
  | .answer k (.error _) => k = n → s.reqQueue.size < capacity
  | .answer k (.ok block) => k = n → (encode block).isSome
  | _ => True

instance (s : Server) (i : Input) : Decidable (Retains encode capacity n s i) :=
  match i with
  | .answer _ (.error _) => inferInstanceAs (Decidable (_ → _))
  | .answer _ (.ok _) => inferInstanceAs (Decidable (_ → _))
  | .push _ _ | .topAndPop | .fetchAndSendBlock => isTrue trivial

theorem mem_erase_or_eq {ns : List ℤ} {k : ℤ} (hn : n ∈ ns) :
    n ∈ ns.erase k ∨ k = n :=
  (eq_or_ne k n).symm.imp_left fun hne =>
    (List.mem_erase_of_ne hne.symm).mpr hn

/-- A step that retains a height leaves it to be answered, or sends it. -/
theorem owes_step (h : s.InRange) (howes : s.Owes n)
    (hretains : Retains encode capacity n s i)
    (hstep : s.step encode capacity peer i = some t) :
    t.Owes n ∨ s.outbox.countP (Brings n) < t.outbox.countP (Brings n) := by
  cases i with
  | push number size =>
      obtain rfl := Option.some.inj hstep
      exact .inl (howes.imp_left fun hwants => hwants.push capacity _ _)
  | topAndPop =>
      obtain ⟨hnone, r, q, hpop, rfl⟩ := step_topAndPop hstep
      rcases howes with hwants | hnumbers | hfetching
      · rcases ((h.reqQueue.topAndPop hpop).2.2.2 n).mp hwants with hin | hrest
        · exact .inl (.inr (.inl ((h.reqQueue.mem_numbers hpop).mpr hin)))
        · exact .inl (.inl hrest)
      · exact absurd (hnone ▸ hnumbers) List.not_mem_nil
      · exact .inl (.inr (.inr hfetching))
  | fetchAndSendBlock =>
      obtain ⟨k, ns, hnumbers, rfl⟩ := step_fetch hstep
      rcases howes with hwants | hmem | hfetching
      · exact .inl (.inl hwants)
      · rcases List.mem_cons.mp (hnumbers ▸ hmem) with rfl | hmem
        · exact .inl (.inr (.inr List.mem_cons_self))
        · exact .inl (.inr (.inl hmem))
      · exact .inl (.inr (.inr (List.mem_cons_of_mem _ hfetching)))
  | answer k a =>
      obtain ⟨hmem, hcases⟩ := step_answer hstep
      have hk := h.fetching k hmem
      rcases hcases with ⟨e, rfl, rfl⟩ | ⟨block, rfl, hnone, rfl⟩ |
        ⟨block, data, rfl, -, rfl⟩
      · left
        rcases howes with hwants | hnumbers | hfetching
        · exact .inl (hwants.push capacity _ _)
        · exact .inr (.inl hnumbers)
        · rcases mem_erase_or_eq (k := k) hfetching with hleft | rfl
          · exact .inr (.inr hleft)
          · exact .inl (wants_push (hretains rfl) hk.1 zero_le_one hk.2 le_rfl
              (Int.lt_succ k))
      · left
        refine howes.imp_right (Or.imp_right fun hfetching => ?_)
        refine (mem_erase_or_eq hfetching).resolve_right fun heq => ?_
        have hsome : (encode block).isSome := hretains heq
        rw [hnone] at hsome
        cases hsome
      · by_cases heq : k = n
        · have hbrings : Brings n (peer, .blocks k data) = true :=
            decide_eq_true heq
          right
          rw [List.countP_cons_of_pos hbrings]
          exact Nat.lt_succ_self _
        · left
          refine howes.imp_right (Or.imp_right fun hfetching => ?_)
          exact (mem_erase_or_eq hfetching).resolve_right heq

/-- What has been sent stays sent. -/
theorem sent_step (hstep : s.step encode capacity peer i = some t) (n : ℤ) :
    s.outbox.countP (Brings n) ≤ t.outbox.countP (Brings n) := by
  cases i with
  | push => exact (Option.some.inj hstep ▸ le_rfl)
  | topAndPop =>
      obtain ⟨-, r, q, -, rfl⟩ := step_topAndPop hstep
      exact le_rfl
  | fetchAndSendBlock =>
      obtain ⟨k, ns, -, rfl⟩ := step_fetch hstep
      exact le_rfl
  | answer k a =>
      obtain ⟨-, ⟨e, -, rfl⟩ | ⟨block, -, -, rfl⟩ |
        ⟨block, data, -, -, rfl⟩⟩ := step_answer hstep
      · exact le_rfl
      · exact le_rfl
      · exact (List.sublist_cons_self _ _).countP_le

theorem owes_exec {is : List Input} (h : s.InRange) (howes : s.Owes n)
    (hA : ∀ i ∈ is, Asks i)
    (hretains : (system encode capacity peer).AllSteps
      (Retains encode capacity n) s is)
    (hrun : (system encode capacity peer).exec s is = some t) :
    t.Owes n ∨ s.outbox.countP (Brings n) < t.outbox.countP (Brings n) := by
  induction is generalizing s with
  | nil => exact .inl (Option.some.inj hrun ▸ howes)
  | cons i is ih =>
      obtain ⟨u, hu, hrest⟩ := TransitionSystem.exists_of_exec_cons hrun
      obtain ⟨hi, his⟩ := List.forall_mem_cons.mp hA
      obtain ⟨hfirst, hlater⟩ := hretains u hu
      rcases owes_step h howes hfirst hu with howes | hsent
      · refine (ih (h.step hi hu) howes his hlater hrest).imp_right ?_
        exact (sent_step hu n).trans_lt
      · refine .inr (hsent.trans_le ?_)
        exact TransitionSystem.exec_preserves
          (I := fun v =>
            u.outbox.countP (Brings n) ≤ v.outbox.countP (Brings n))
          (fun _ _ _ hle hstep => hle.trans (sent_step hstep n)) le_rfl hrest

/-- A request that is taken up is kept until it is answered: as long as errors
find the queue with room and blocks can be encoded, each of its heights is
still to be answered or has been sent since. -/
theorem run_keeps_asked {number size : ℤ} {is : List Input}
    (h : (system encode capacity peer).ReachableBy Asks s)
    (hroom : s.reqQueue.size < capacity) (hlow : number ≤ n)
    (hhigh : n < number + size)
    (hA : ∀ i ∈ Input.push number size :: is, Asks i)
    (hretains : (system encode capacity peer).AllSteps
      (Retains encode capacity n) s (.push number size :: is))
    (hrun : (system encode capacity peer).exec s (.push number size :: is) =
      some t) :
    t.Owes n ∨ s.outbox.countP (Brings n) < t.outbox.countP (Brings n) := by
  obtain ⟨u, hu, hrest⟩ := TransitionSystem.exists_of_exec_cons hrun
  obtain ⟨hi, his⟩ := List.forall_mem_cons.mp hA
  have hstep : s.step encode capacity peer (.push number size) = some u := hu
  have howes : u.Owes n ∧ u.outbox = s.outbox := by
    obtain rfl := Option.some.inj hstep
    exact ⟨.inl (wants_push hroom hi.1 hi.2.1 hi.2.2 hlow hhigh), rfl⟩
  rw [← howes.2]
  exact owes_exec ((reachable_inRange h).step hi hstep) howes.1 his
    (hretains u hu).2 hrest

theorem run_keeps_asked_sample :
    ∃ t, (system (fun _ => some []) 2 Sample.peer).exec new
        failingOnce = some t ∧
      (t.Owes 0 ∨
        new.outbox.countP (Brings 0) < t.outbox.countP (Brings 0)) := by
  obtain ⟨t, hrun⟩ :
      ∃ t, (system (fun _ => some []) 2 Sample.peer).exec new failingOnce =
        some t := ⟨_, rfl⟩
  exact ⟨t, hrun, run_keeps_asked (n := 0) (.init rfl) (by decide) le_rfl
    (by decide) asks_failingOnce (by decide) hrun⟩

end Server

end BcosSync
