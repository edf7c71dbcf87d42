/-
# `BBC.Node.Answers` — a submission ends with its answer

The network is that of `BBC.Node.Submission`.  A wallet in the state `submitted` has something
on its way for it, at one of four places:

    at the wallet          a handler that will send the submission
    to the full node       TRANSACTION_SUBMIT in flight
    at the full node       a handler that will send a result, whatever happens in between
    from the full node     TRANSACTION_RESULT in flight

So no wallet waits when nothing is in flight and all handlers have ended
(`submissions_answered`), if the sessions stay.  On the wallet's side nothing but that result
ends the wait (`submission_waits`).
-/
import BBC.Node.Submission
import BBC.Storage.PersistentPool

namespace BBC

open Sections (Program Move System)
open NodeRuntime (WellFormedResult resultAccepted resultBlockId Aloof)

variable {κ : Crypto} {ν : Type}

/-! ## What a wallet without a chain does while it waits -/

namespace NodeRuntime

/-- The process has no chain, and waits for the answer of this peer about this transaction. -/
def Waiting (id : Hash256) (peerId : UInt64) (n : NodeRuntime) : Prop :=
  n.chainStore = none ∧ n.transaction = ⟨.submitted, some id, some peerId⟩

/-- No transaction is submitted. -/
def Reserved (os : List Output) : Prop := ∀ o ∈ os, o.message.1 ≠ .transactionSubmit

theorem reserved_nil : Reserved [] := fun _ ho => absurd ho List.not_mem_nil

/-- A thread that neither ends the wait nor submits anything in it. -/
abbrev Waits (id : Hash256) (peerId : UInt64) (p : Task) (seen : Set Unit) : Prop :=
  p.Vouched (fun _ => ∅) (Waiting id peerId) (fun _ _ _ os _ => Reserved os) seen

/-- A thread that has noted its submission and has not yet sent or dropped it. -/
def Submitting (p : Task) : Prop :=
  (∃ t peerId, p = sendSubmission t peerId) ∨ p = dropSubmission

theorem not_submitting_done : ¬ Submitting .done := by
  rintro (⟨t, peerId, hdone⟩ | hdone)
  · cases hdone
  · cases hdone

/-- A thread that waits for whatever is awaited, unless it is submitting. -/
def Patient (p : Task) : Prop := (∀ id peerId seen, Waits id peerId p seen) ∨ Submitting p

/-- A handler of a process without a chain, all the way. -/
abbrev StaysPatient (p : Task) : Prop := p.Throughout (fun n => n.chainStore = none) Patient

theorem patient_done : Patient .done := Or.inl fun _ _ _ => Program.vouched_done

theorem Unmoved.chain_none {n n' : NodeRuntime} (h : Unmoved n n') (hn : n.chainStore = none) :
    n'.chainStore = none := by
  have hsame := h.chain
  rw [hn] at hsame
  exact Option.not_isSome_iff_eq_none.mp (by rw [hsame]; exact Bool.false_ne_true)

theorem Aloof.waiting {n n' : NodeRuntime} {os : List Output} {id : Hash256} {peerId : UInt64}
    (h : Aloof κ n n' os) (hn : Waiting id peerId n) : Waiting id peerId n' :=
  ⟨h.toUnmoved.chain_none hn.1, h.transaction.trans hn.2⟩

theorem waits_of_aloof {p : Task} (h : p.All (Aloof κ)) (id : Hash256) (peerId : UInt64)
    (seen : Set Unit) : Waits id peerId p seen :=
  h.vouched (fun _ _ _ haloof hn => haloof.waiting hn)
    (fun _ _ _ _ _ haloof _ o ho => (haloof.quiet o ho).2) seen

theorem staysPatient_of_aloof {p : Task} (h : p.All (Aloof κ)) : StaysPatient p :=
  h.throughout (fun _ _ _ haloof hn => haloof.toUnmoved.chain_none hn)
    fun _ hq => Or.inl (waits_of_aloof hq)

theorem waits_handleTransaction (peerId : UInt64) (payload : Bytes) (submission : Bool)
    (id : Hash256) (awaited : UInt64) (seen : Set Unit) :
    Waits id awaited (handleTransaction κ peerId payload submission) seen := by
  intro n _ hn
  refine ⟨hn, reserved_nil, ?_⟩
  dsimp only
  rw [hn.1]
  exact Program.vouched_done

theorem staysPatient_handleTransaction (peerId : UInt64) (payload : Bytes) (submission : Bool) :
    StaysPatient (handleTransaction κ peerId payload submission) := by
  refine ⟨Or.inl (waits_handleTransaction peerId payload submission), fun n _ hn => ⟨hn, ?_⟩⟩
  dsimp only
  rw [hn]
  exact patient_done

theorem staysPatient_sendSubmission (t : SignedTransaction) (peerId : UInt64) :
    StaysPatient (sendSubmission t peerId) := by
  refine ⟨Or.inr (Or.inl ⟨t, peerId, rfl⟩), fun n _ hn => ⟨hn, ?_⟩⟩
  dsimp only
  split
  · exact patient_done
  · exact Program.throughout_last (Or.inr (Or.inr rfl)) patient_done fun _ _ hm => hm

/-- While another submission is under way none is noted. -/
theorem waits_submitToFullNode (t : SignedTransaction) (fullNode : Option PeerStatus)
    (id : Hash256) (peerId : UInt64) (seen : Set Unit) :
    Waits id peerId (submitToFullNode κ t fullNode) seen := by
  cases fullNode with
  | none => exact Program.vouched_done
  | some fullNode =>
      intro n _ hn
      have hrefused : n.noteSubmission (t.id κ) fullNode.id = (n, [], false) := by
        rw [noteSubmission, hn.2]
        exact if_pos rfl
      dsimp only
      rw [hrefused]
      exact ⟨hn, reserved_nil, Program.vouched_done⟩

theorem staysPatient_submitToFullNode (t : SignedTransaction) (fullNode : Option PeerStatus) :
    StaysPatient (submitToFullNode κ t fullNode) := by
  have hself := waits_submitToFullNode (κ := κ) t fullNode
  cases fullNode with
  | none => exact patient_done
  | some fullNode =>
      refine ⟨Or.inl hself, fun n _ hn => ⟨?_, ?_⟩⟩
      · dsimp only [noteSubmission]
        split <;> exact hn
      · dsimp only
        split
        · exact staysPatient_sendSubmission t _
        · exact patient_done

theorem addSection_without {n : NodeRuntime} (hn : n.chainStore = none) (t : SignedTransaction)
    (io : StorageIo) : n.addSection κ t io = (n, [], none) := by
  rw [addSection, hn]

theorem waits_submitSignedTransaction (t : SignedTransaction) (id : Hash256) (peerId : UInt64)
    (seen : Set Unit) : Waits id peerId (submitSignedTransaction κ t) seen := by
  intro n _ hn
  refine ⟨hn, reserved_nil, ?_⟩
  dsimp only
  split
  · exact Program.vouched_done
  intro m io hm
  dsimp only
  rw [addSection_without hm.1]
  exact ⟨hm, reserved_nil, waits_submitToFullNode t _ _ _ _⟩

theorem staysPatient_submitSignedTransaction (t : SignedTransaction) :
    StaysPatient (submitSignedTransaction κ t) := by
  refine ⟨Or.inl (waits_submitSignedTransaction t), fun n _ hn => ⟨hn, ?_⟩⟩
  dsimp only
  split
  · exact patient_done
  refine ⟨Or.inl fun id peerId seen m io hm => ?_, fun m io hm => ?_⟩
  · dsimp only
    rw [addSection_without hm.1]
    exact ⟨hm, reserved_nil, waits_submitToFullNode t _ _ _ _⟩
  · dsimp only
    rw [addSection_without hm]
    exact ⟨hm, staysPatient_submitToFullNode t _⟩

/-- Every handler is patient, and none begins in the middle of a submission. -/
theorem patient_call (call : Call) :
    (∀ id peerId seen, Waits id peerId (call.task κ) seen) ∧ StaysPatient (call.task κ) := by
  have haloof : ∀ {p : Task}, p.All (Aloof κ) →
      (∀ id peerId seen, Waits id peerId p seen) ∧ StaysPatient p :=
    fun h => ⟨waits_of_aloof h, staysPatient_of_aloof h⟩
  cases call with
  | block peerId payload => exact haloof (all_handleBlock peerId payload false)
  | blockSubmit peerId payload => exact haloof (all_handleBlock peerId payload true)
  | blocks peerId payload => exact haloof (all_handleBlocks peerId payload)
  | getBlocks peerId payload => exact haloof (all_handleGetBlocks peerId payload)
  | transaction peerId payload =>
      exact ⟨waits_handleTransaction peerId payload false,
        staysPatient_handleTransaction peerId payload false⟩
  | transactionSubmit peerId payload =>
      exact ⟨waits_handleTransaction peerId payload true,
        staysPatient_handleTransaction peerId payload true⟩
  | handshake peerId => exact haloof (all_maybeStartSync peerId)
  | submit t => exact ⟨waits_submitSignedTransaction t, staysPatient_submitSignedTransaction t⟩
  | mined block => exact haloof (all_foundLocally block)
  | peers snapshot =>
      have hwaits : ∀ id peerId seen, Waits id peerId ((Call.peers snapshot).task κ) seen :=
        fun id peerId seen => Program.vouched_last fun n _ hn => ⟨hn, reserved_nil⟩
      exact ⟨hwaits, Program.throughout_last (Or.inl hwaits) patient_done fun _ _ hn => hn⟩

theorem chainStore_handleTransactionResult (n : NodeRuntime) (peerId : UInt64) (payload : Bytes) :
    (n.handleTransactionResult peerId payload).chainStore = n.chainStore := by
  rw [handleTransactionResult]
  split <;> rfl

/-- A result that is not the answer is passed over. -/
theorem handleTransactionResult_other {n : NodeRuntime} {id : Hash256} {peerId session : UInt64}
    {payload : Bytes} (hsubmitted : n.transaction = ⟨.submitted, some id, some peerId⟩)
    (hother : ¬ (session = peerId ∧ WellFormedResult payload ∧ resultBlockId payload = id)) :
    n.handleTransactionResult session payload = n := by
  rw [handleTransactionResult]
  refine if_pos ?_
  by_contra htaken
  obtain ⟨hformed, hpending⟩ := not_or.mp htaken
  obtain ⟨hid, hpeer⟩ := not_or.mp hpending
  rw [not_not] at hformed hid hpeer
  rw [hsubmitted] at hid hpeer
  exact hother ⟨(Option.some.inj hpeer).symm, hformed, (Option.some.inj hid).symm⟩

end NodeRuntime

namespace Correspondence

open NodeRuntime (Waiting Waits StaysPatient Submitting Reserved)

variable [DecidableEq ν] {links : Links ν} {net : Correspondence ν} {v : ν}

/-- The event brings a wallet the answer to its submission. -/
def Answers (net : Correspondence ν) (v : ν) (peerId : UInt64) (id : Hash256) :
    SubmissionEvent ν → Prop
  | .deliver k => ∃ env, net.flight[k]? = some env ∧ env.target = v ∧ env.session = peerId ∧
      env.message.1 = .transactionResult ∧ WellFormedResult env.message.2 ∧
      resultBlockId env.message.2 = id
  | _ => False

/-- What a node puts out at an event. -/
def emitted (net : Correspondence ν) (v : ν) : SubmissionEvent ν → List Output
  | .advance w k io => if w = v then
      (net.node v).emitted (Move.advance (γ := NodeRuntime.Call) k io)
      else []
  | _ => []

/-- What an event is for a node: a move of it, or a change of its state, which is not one of
its submission unless a result arrives. -/
def Turn (κ : Crypto) (net : Correspondence ν) (v : ν) (e : SubmissionEvent ν)
    (after : System NodeRuntime StorageIo Output) (os : List Output) : Prop :=
  (∃ m, after = (net.node v).move (NodeRuntime.Call.task κ) m ∧ os = (net.node v).emitted m) ∨
  ∃ f, after = { net.node v with state := f (net.node v).state } ∧ os = [] ∧
    (∀ n, (f n).chainStore = n.chainStore) ∧
    ((∀ n, (f n).transaction = n.transaction) ∨
      ∃ k env, e = .deliver k ∧ net.flight[k]? = some env ∧ env.target = v ∧
        env.message.1 = .transactionResult ∧
        f = fun n => n.handleTransactionResult env.session env.message.2)

omit [DecidableEq ν] in
theorem Turn.idle {e : SubmissionEvent ν} {after : System NodeRuntime StorageIo Output}
    (h : after = net.node v) : Turn κ net v e after [] :=
  Or.inr ⟨id, h, rfl, fun _ => rfl, Or.inl fun _ => rfl⟩

theorem turn_step (κ : Crypto) (links : Links ν) (net : Correspondence ν) (v : ν)
    (e : SubmissionEvent ν) :
    Turn κ net v e ((net.step κ links e).node v) (net.emitted v e) := by
  cases e with
  | call w handler =>
      by_cases hw : v = w
      · subst hw
        exact Or.inl ⟨.start handler, node_move_self net _, rfl⟩
      · exact .idle (node_move_of_ne net _ hw)
  | advance w k io =>
      rw [emitted]
      by_cases hw : v = w
      · subst hw
        rw [if_pos rfl]
        exact Or.inl ⟨.advance k io, node_move_self net _, rfl⟩
      · rw [if_neg (Ne.symm hw)]
        exact .idle (node_move_of_ne net _ hw)
  | mining w status =>
      by_cases hw : v = w
      · subst hw
        have hnode := node_change_self (v := v) net fun n => { n with mining := status }
        exact Or.inr ⟨fun n => { n with mining := status }, hnode, rfl, fun _ => rfl,
          Or.inl fun _ => rfl⟩
      · exact .idle (node_change_of_ne net (fun n => { n with mining := status }) hw)
  | deliver k =>
      refine (?_ : Turn κ net v (.deliver k) _ [])
      rw [Correspondence.step]
      cases hk : net.flight[k]? with
      | none => exact .idle rfl
      | some env =>
          dsimp only
          split
          · rename_i hresult
            by_cases hv : v = env.target
            · subst hv
              exact Or.inr ⟨_, node_change_self _ _, rfl,
                fun n => NodeRuntime.chainStore_handleTransactionResult n _ _,
                Or.inr ⟨k, env, rfl, hk, rfl, hresult, rfl⟩⟩
            · exact .idle (node_change_of_ne _ _ hv)
          · split
            · exact .idle rfl
            · by_cases hv : v = env.target
              · subst hv
                exact Or.inl ⟨.start _, node_move_self _ _, rfl⟩
              · exact .idle (node_move_of_ne _ _ hv)

/-- One node is a process without a chain. -/
structure Chainless (κ : Crypto) (net : Correspondence ν) (v : ν) : Prop where
  chain : (net.node v).state.chainStore = none
  threads : ∀ p ∈ (net.node v).threads, StaysPatient p

theorem Chainless.step (h : net.Chainless κ v) (links : Links ν) (e : SubmissionEvent ν) :
    (net.step κ links e).Chainless κ v := by
  rcases turn_step κ links net v e with ⟨m, hnode, -⟩ | ⟨f, hnode, -, hchain, -⟩
  · obtain ⟨hstate, hthreads⟩ :=
      System.throughout_move h.chain h.threads (e := m) fun call _ =>
        (NodeRuntime.patient_call (κ := κ) call).2
    exact ⟨by rw [hnode]; exact hstate, by rw [hnode]; exact hthreads⟩
  · refine ⟨?_, by rw [hnode]; exact h.threads⟩
    rw [hnode]
    exact (hchain _).trans h.chain

theorem Chainless.run (links : Links ν) (events : List (SubmissionEvent ν)) :
    ∀ {net : Correspondence ν}, net.Chainless κ v →
      (Runs.run (Correspondence.step κ links) net events).Chainless κ v := by
  induction events with
  | nil => exact fun h => h
  | cons e events ih => exact fun h => ih (h.step links e)

/-- The process waits, and all its handlers with it. -/
structure Pending (net : Correspondence ν) (v : ν) (id : Hash256) (peerId : UInt64) : Prop where
  state : Waiting id peerId (net.node v).state
  threads : ∀ p ∈ (net.node v).threads, Waits id peerId p ∅

/-- An event that does not answer the submission leaves it as it is. -/
theorem Pending.step {id : Hash256} {peerId : UInt64} (h : net.Pending v id peerId)
    (links : Links ν) {e : SubmissionEvent ν} (he : ¬ net.Answers v peerId id e) :
    (net.step κ links e).Pending v id peerId ∧ Reserved (net.emitted v e) := by
  rcases turn_step κ links net v e with ⟨m, hnode, hout⟩ | ⟨f, hnode, hout, hchain, hchange⟩
  · have hcall : ∀ call, m = .start call → Waits id peerId (NodeRuntime.Call.task κ call) ∅ :=
      fun call _ => (NodeRuntime.patient_call call).1 id peerId ∅
    obtain ⟨hstate, hthreads, hdone⟩ :=
      System.vouched_move (fun _ _ _ _ _ _ _ hreserved => hreserved) h.state h.threads hcall
    rw [Set.union_self] at hthreads
    refine ⟨⟨by rw [hnode]; exact hstate, by rw [hnode]; exact hthreads⟩, ?_⟩
    rw [hout]
    rcases hdone with ⟨-, hsilent⟩ | ⟨-, -, hreserved⟩
    · rw [hsilent]
      exact NodeRuntime.reserved_nil
    · exact hreserved
  · rw [hout]
    refine ⟨⟨?_, by rw [hnode]; exact h.threads⟩, NodeRuntime.reserved_nil⟩
    rw [hnode]
    refine ⟨(hchain _).trans h.state.1, ?_⟩
    rcases hchange with hkept | ⟨k, env, rfl, hk, htarget, hresult, rfl⟩
    · exact (hkept _).trans h.state.2
    · dsimp only
      rw [NodeRuntime.handleTransactionResult_other h.state.2 fun hanswer =>
        he ⟨env, hk, htarget, hanswer.1, hresult, hanswer.2⟩]
      exact h.state.2

theorem Pending.run {id : Hash256} {peerId : UInt64} (links : Links ν)
    {events : List (SubmissionEvent ν)} :
    ∀ {net : Correspondence ν}, net.Pending v id peerId →
      Runs.Along (Correspondence.step κ links) (fun net e => ¬ net.Answers v peerId id e) net
        events →
      (Runs.run (Correspondence.step κ links) net events).Pending v id peerId ∧
        Runs.Along (Correspondence.step κ links) (fun net e => Reserved (net.emitted v e)) net
          events := by
  induction events with
  | nil => exact fun h _ => ⟨h, trivial⟩
  | cons e events ih =>
      intro net h hunanswered
      obtain ⟨hnext, hsilent⟩ := h.step (κ := κ) links hunanswered.1
      obtain ⟨hend, hrest⟩ := ih hnext hunanswered.2
      exact ⟨hend, hsilent, hrest⟩

/-- A process without a chain that has submitted a transaction, and is not about to send or
drop another, waits for the result from that peer about that transaction.  Until it arrives
nothing else changes its state, however many messages come, handlers run and peers come and
go, and it submits nothing else. -/
theorem submission_waits (κ : Crypto) (links : Links ν) (start : ν → NodeRuntime) (v : ν)
    (hchain : (start v).chainStore = none) (early late : List (SubmissionEvent ν)) (id : Hash256)
    (peerId : UInt64) :
    let before := Runs.run (step κ links) (init start) early
    (before.node v).state.transaction = ⟨.submitted, some id, some peerId⟩ →
    (∀ p ∈ (before.node v).threads, ¬ Submitting p) →
    Runs.Along (step κ links) (fun net e => ¬ net.Answers v peerId id e) before late →
      ((Runs.run (step κ links) before late).node v).state.transaction
          = ⟨.submitted, some id, some peerId⟩ ∧
        Runs.Along (step κ links)
          (fun net e => ∀ o ∈ net.emitted v e, o.message.1 ≠ .transactionSubmit) before late := by
  intro before hsubmitted hsent hunanswered
  have hinit : (init start).Chainless κ v :=
    ⟨hchain, fun p hp => absurd hp List.not_mem_nil⟩
  have hbefore : before.Chainless κ v := hinit.run links early
  have hpending : before.Pending v id peerId := by
    refine ⟨⟨hbefore.chain, hsubmitted⟩, fun p hp => ?_⟩
    rcases (hbefore.threads p hp).self with hwaits | hsubmitting
    · exact hwaits id peerId ∅
    · exact absurd hsubmitting (hsent p hp)
  obtain ⟨hend, hreserved⟩ := hpending.run links hunanswered
  exact ⟨hend.state.2, hreserved⟩

/-- The session ends before the answer, and the miner tries again. -/
def lostEvents : List (SubmissionEvent Bool) :=
  .call false (.peers []) :: .advance false 1 {} :: .call false (.submit minerPayment)
    :: List.replicate 3 (.advance false 2 {})

theorem submission_waits_lost :
    ((Runs.run (step reference coupleLinks) (Runs.run (step reference coupleLinks)
        (init coupleStart) askingEvents) lostEvents).node false).state.transaction
      = ⟨.submitted, some (minerPayment.id reference), some 1⟩ := by
  have hsubmitted : ((Runs.run (step reference coupleLinks) (init coupleStart)
      askingEvents).node false).state.transaction
        = ⟨.submitted, some (minerPayment.id reference), some 1⟩ := rfl
  have hended : ((Runs.run (step reference coupleLinks) (init coupleStart)
      askingEvents).node false).threads = [.done] := rfl
  have hsent : ∀ p ∈ ((Runs.run (step reference coupleLinks) (init coupleStart)
      askingEvents).node false).threads, ¬ Submitting p := by
    intro p hp
    rw [hended] at hp
    rw [List.mem_singleton.mp hp]
    exact NodeRuntime.not_submitting_done
  have hunanswered : Runs.Along (step reference coupleLinks)
      (fun net e => ¬ net.Answers false 1 (minerPayment.id reference) e)
      (Runs.run (step reference coupleLinks) (init coupleStart) askingEvents) lostEvents :=
    ⟨id, id, id, id, id, id, trivial⟩
  exact (submission_waits reference coupleLinks coupleStart false rfl askingEvents lostEvents
    (minerPayment.id reference) 1 hsubmitted hsent hunanswered).1

end Correspondence

/-! ## What a full node owes -/

namespace NodeRuntime

/-- The result that a submission over a session asks for. -/
def Answer (peerId : UInt64) (id : Hash256) (o : Output) : Prop :=
  ∃ payload, o = .send peerId .transactionResult payload ∧ WellFormedResult payload ∧
    resultBlockId payload = id

theorem answer_sendTransactionResult {n : NodeRuntime} {peerId : UInt64}
    (hreaches : n.reaches peerId = true) (id : Hash256) (accepted : Bool) {reason : UInt16}
    (hreason : accepted = true ↔ reason = 0) :
    ∃ o ∈ n.sendTransactionResult peerId id accepted reason, Answer peerId id o := by
  obtain ⟨hformed, hid, -⟩ := wellFormed_result id accepted hreason
  rw [sendTransactionResult, send, if_pos hreaches]
  exact ⟨_, List.mem_singleton_self _, _, rfl, hformed, hid⟩

/-- A full node that keeps its session with the wallet sends a result, whatever it does in
between. -/
theorem surely_handleTransaction {I : NodeRuntime → Prop} {peerId : UInt64}
    (hI : ∀ n, I n → n.chainStore.isSome = true ∧ n.mempoolStore.isSome = true ∧
      n.reaches peerId = true) {t : SignedTransaction} (ht : t.Verified κ) :
    (handleTransaction κ peerId t.serialize true).Surely I (Answer peerId (t.id κ)) := by
  intro n _ hn
  obtain ⟨hchain, hpool, -⟩ := hI n hn
  refine Or.inr ?_
  dsimp only
  rw [hchain, hpool, t.deserialize_serialize κ ht]
  dsimp only
  rw [if_neg (by simp)]
  split
  · refine Program.surely_last fun m _ hm => ?_
    have hno : false = true ↔ (2 : UInt16) = 0 := by decide
    exact answer_sendTransactionResult (hI m hm).2.2 _ _ hno
  intro m io hm
  obtain ⟨hchain, hpool, -⟩ := hI m hm
  obtain ⟨added, hadded⟩ := addSection_isSome (κ := κ) hchain hpool t io
  refine Or.inr ?_
  dsimp only
  rw [hadded]
  refine Program.surely_last fun l _ hl => ?_
  have hreaches := (hI l hl).2.2
  cases hvalue : added.hasValue with
  | false =>
      rw [if_pos (by simp)]
      have hno : false = true ↔ (if added.storageError = .none
          ∧ added.mempoolError = .duplicateTransaction then (3 : UInt16) else 4) = 0 := by
        split <;> decide
      exact answer_sendTransactionResult hreaches _ _ hno
  | true =>
      rw [if_neg (by simp)]
      have hyes : true = true ↔ (0 : UInt16) = 0 := by decide
      obtain ⟨o, ho, hanswer⟩ := answer_sendTransactionResult hreaches (t.id κ) true hyes
      exact ⟨o, List.mem_append_left _ ho, hanswer⟩

/-! ## A network in which the sessions stay -/

section ready
variable {links : Links ν} {full : ν → Prop} {v : ν} {n n' : NodeRuntime} {os : List Output}

/-- The sessions of a node are open, it has its stores if it is a full node, and what it takes
for a full node is one. -/
structure Ready (links : Links ν) (full : ν → Prop) (v : ν) (n : NodeRuntime) : Prop where
  open_ : ∀ l ∈ links v, n.reaches l.1 = true
  stores : full v → n.chainStore.isSome = true ∧ n.mempoolStore.isSome = true
  services : ∀ peer ∈ n.peers, peer.handshakeComplete = true → peer.isFullNode = true →
    ∃ u q, (peer.id, u, q) ∈ links v ∧ full u

/-- The submission of a transaction to a peer. -/
def Submits (p : UInt64) (t : SignedTransaction) (o : Output) : Prop :=
  o = .send p .transactionSubmit t.serialize

/-- A section that notes, if it does, the submission of a verified transaction to a full node,
and leaves it to the rest of the handler to send it. -/
def Entrusts (κ : Crypto) (links : Links ν) (full : ν → Prop) (v : ν) (n n' : NodeRuntime)
    (rest : Task) : Prop :=
  n'.transaction = n.transaction ∨ n'.transaction.state ≠ .submitted ∨
    ∃ t : SignedTransaction, t.Verified κ ∧ ∃ p u q, (p, u, q) ∈ links v ∧ full u ∧
      n'.transaction = ⟨.submitted, some (t.id κ), some p⟩ ∧
      rest.Surely (Ready links full v) (Submits p t)

theorem Ready.unmoved (h : n.Ready links full v) (hmoved : Unmoved n n') :
    n'.Ready links full v := by
  have hreaches : ∀ p, n'.reaches p = n.reaches p := by
    intro p
    rw [reaches, reaches, hmoved.peers]
  refine ⟨fun l hl => ?_, fun hfull => ?_, fun peer hpeer => ?_⟩
  · rw [hreaches]
    exact h.open_ l hl
  · rw [hmoved.chain, hmoved.pool]
    exact h.stores hfull
  · rw [hmoved.peers] at hpeer
    exact h.services peer hpeer

/-- A section of a node in this network. -/
abbrev Attends (κ : Crypto) (links : Links ν) (full : ν → Prop) (v : ν) (p : Task)
    (seen : Set Unit) : Prop :=
  p.Vouched (fun _ => ∅) (Ready links full v) (fun _ n n' _ => Entrusts κ links full v n n') seen

theorem attends_of_aloof {p : Task} (h : p.All (Aloof κ)) (seen : Set Unit) :
    Attends κ links full v p seen :=
  h.vouched (fun _ _ _ haloof hn => hn.unmoved haloof.toUnmoved)
    (fun _ _ _ _ _ haloof _ => Or.inl haloof.transaction) seen

theorem attends_handleTransaction (peerId : UInt64) (payload : Bytes) (submission : Bool)
    (seen : Set Unit) :
    Attends κ links full v (handleTransaction κ peerId payload submission) seen := by
  have hlast : ∀ (act : NodeRuntime → List Output) (seen : Set Unit),
      Attends κ links full v (.last fun n _ => (n, act n)) seen :=
    fun act seen => Program.vouched_last fun n _ hn => ⟨hn, Or.inl rfl⟩
  intro n _ hn
  refine ⟨hn, Or.inl rfl, ?_⟩
  dsimp only
  split
  · exact Program.vouched_done
  split
  · exact hlast _ _
  split
  · exact hlast _ _
  intro m io hm
  obtain ⟨hmoved, -⟩ := unmoved_addSection (κ := κ) m ‹SignedTransaction› io
  refine ⟨hm.unmoved hmoved, Or.inl hmoved.transaction, ?_⟩
  dsimp only
  split
  · exact Program.vouched_done
  · refine Program.vouched_last fun l _ hl => ?_
    split
    · exact ⟨hl, Or.inl rfl⟩
    · exact ⟨hl, Or.inl rfl⟩

theorem surely_sendSubmission {p : UInt64} {u : ν} {q : UInt64} (hlink : (p, u, q) ∈ links v)
    (t : SignedTransaction) : (sendSubmission t p).Surely (Ready links full v) (Submits p t) := by
  intro n _ hn
  have hreaches : n.reaches p = true := hn.open_ _ hlink
  refine Or.inl ⟨_, ?_, rfl⟩
  dsimp only [send]
  rw [if_pos hreaches]
  exact List.mem_singleton_self _

theorem attends_sendSubmission (t : SignedTransaction) (p : UInt64) (seen : Set Unit) :
    Attends κ links full v (sendSubmission t p) seen := by
  intro n _ hn
  refine ⟨hn, Or.inl rfl, ?_⟩
  dsimp only
  split
  · exact Program.vouched_done
  · exact Program.vouched_last fun m _ hm =>
      ⟨⟨hm.open_, hm.stores, hm.services⟩, Or.inr (Or.inl (by simp))⟩

theorem attends_submitToFullNode {t : SignedTransaction} (ht : t.Verified κ)
    {fullNode : Option PeerStatus}
    (hfound : ∀ peer, fullNode = some peer → ∃ u q, (peer.id, u, q) ∈ links v ∧ full u)
    (seen : Set Unit) : Attends κ links full v (submitToFullNode κ t fullNode) seen := by
  cases fullNode with
  | none => exact Program.vouched_done
  | some peer =>
      obtain ⟨u, q, hlink, hu⟩ := hfound peer rfl
      intro n _ hn
      by_cases hpending : n.transaction.state = .submitted
      · have hrefused : n.noteSubmission (t.id κ) peer.id = (n, [], false) := if_pos hpending
        dsimp only
        rw [hrefused]
        exact ⟨hn, Or.inl rfl, Program.vouched_done⟩
      · have hnoted : n.noteSubmission (t.id κ) peer.id
            = ({ n with transaction := ⟨.submitted, some (t.id κ), some peer.id⟩ }, [], true) :=
          if_neg hpending
        dsimp only
        rw [hnoted]
        refine ⟨⟨hn.open_, hn.stores, hn.services⟩, Or.inr (Or.inr ?_), ?_⟩
        · exact ⟨t, ht, peer.id, u, q, hlink, hu, rfl, surely_sendSubmission hlink t⟩
        · exact attends_sendSubmission t peer.id _

theorem attends_submitSignedTransaction {t : SignedTransaction} (ht : t.Verified κ)
    (seen : Set Unit) : Attends κ links full v (submitSignedTransaction κ t) seen := by
  intro n _ hn
  refine ⟨hn, Or.inl rfl, ?_⟩
  dsimp only
  split
  · exact Program.vouched_done
  intro m io hm
  obtain ⟨hmoved, -⟩ := unmoved_addSection (κ := κ) m t io
  refine ⟨hm.unmoved hmoved, Or.inl hmoved.transaction, ?_⟩
  dsimp only
  split
  · split
    · exact Program.vouched_done
    intro l _ hl
    refine ⟨⟨hl.open_, hl.stores, hl.services⟩, Or.inr (Or.inl (by simp [noteAdmission])), ?_⟩
    exact Program.vouched_last fun k _ hk => ⟨hk, Or.inl rfl⟩
  · refine attends_submitToFullNode ht (fun peer hfound => ?_) _
    have hoffers := List.find?_some hfound
    obtain ⟨hcomplete, hservice⟩ := Bool.and_eq_true_iff.mp hoffers
    exact hn.services peer (List.mem_of_find?_eq_some hfound) hcomplete hservice

theorem Ready.setPeers {snapshot : List PeerStatus} (h : n.Ready links full v)
    (hopen : ∀ l ∈ links v,
      snapshot.any (fun peer => peer.id = l.1 && peer.handshakeComplete) = true)
    (hservices : ∀ peer ∈ snapshot, peer.handshakeComplete = true → peer.isFullNode = true →
      ∃ u q, (peer.id, u, q) ∈ links v ∧ full u) : (n.setPeers snapshot).Ready links full v := by
  cases hnetwork : n.network with
  | none =>
      have hsame : (n.setPeers snapshot).peers = n.peers := by
        rw [peers, peers, NodeRuntime.setPeers, hnetwork]
        rfl
      exact h.unmoved ⟨rfl, rfl, rfl, hsame⟩
  | some view =>
      have hpeers := peers_setPeers (n := n) (by rw [hnetwork]; rfl) snapshot
      refine ⟨fun l hl => ?_, h.stores, fun peer hpeer => ?_⟩
      · rw [reaches, hpeers]
        exact hopen l hl
      · rw [hpeers] at hpeer
        exact hservices peer hpeer

end ready

end NodeRuntime

namespace Correspondence

open NodeRuntime (Ready Entrusts Submits Answer Attends)

variable [DecidableEq ν] {links : Links ν} {full : ν → Prop}

/-- An event of such a network: submitted transactions are verified, and new snapshots of the
peers have the sessions. -/
def Fair (κ : Crypto) (links : Links ν) (full : ν → Prop) : SubmissionEvent ν → Prop
  | .call _ (.submit t) => t.Verified κ
  | .call v (.peers snapshot) =>
      (∀ l ∈ links v, snapshot.any (fun peer => peer.id = l.1 && peer.handshakeComplete) = true) ∧
      ∀ peer ∈ snapshot, peer.handshakeComplete = true → peer.isFullNode = true →
        ∃ u q, (peer.id, u, q) ∈ links v ∧ full u
  | _ => True

/-- Something is on its way for the submission of `id` by `v` to `u`. -/
def Underway (κ : Crypto) (links : Links ν) (full : ν → Prop) (net : Correspondence ν) (v : ν)
    (p : UInt64) (u : ν) (q : UInt64) (id : Hash256) : Prop :=
  (∃ t : SignedTransaction, t.Verified κ ∧ t.id κ = id ∧
    ∃ th ∈ (net.node v).threads, th.Surely (Ready links full v) (Submits p t)) ∨
  (∃ t : SignedTransaction, t.Verified κ ∧ t.id κ = id ∧
    (⟨u, q, .transactionSubmit, t.serialize⟩ : Envelope ν) ∈ net.flight) ∨
  (∃ th ∈ (net.node u).threads, th.Surely (Ready links full u) (Answer q id)) ∨
  ∃ payload, WellFormedResult payload ∧ resultBlockId payload = id ∧
    (⟨v, p, .transactionResult, payload⟩ : Envelope ν) ∈ net.flight

/-- Every wallet that waits has something on its way. -/
structure Attended (κ : Crypto) (links : Links ν) (full : ν → Prop) (net : Correspondence ν)
    (seen : ν → Set Unit) : Prop where
  heard : net.Heard (fun _ => ∅) (Ready links full) (fun v _ n n' _ => Entrusts κ links full v n n')
    seen
  waiting : ∀ v, (net.node v).state.transaction.state = .submitted →
    ∃ id p u q, (net.node v).state.transaction = ⟨.submitted, some id, some p⟩ ∧
      (p, u, q) ∈ links v ∧ full u ∧ net.Underway κ links full v p u q id

omit [DecidableEq ν] in
theorem attends_call {v : ν} {handler : NodeRuntime.Call}
    (h : Fair κ links full (.call v handler)) (seen : Set Unit) :
    Attends κ links full v (handler.task κ) seen := by
  cases handler with
  | block peerId payload =>
      exact NodeRuntime.attends_of_aloof (NodeRuntime.all_handleBlock peerId payload false) seen
  | blockSubmit peerId payload =>
      exact NodeRuntime.attends_of_aloof (NodeRuntime.all_handleBlock peerId payload true) seen
  | blocks peerId payload =>
      exact NodeRuntime.attends_of_aloof (NodeRuntime.all_handleBlocks peerId payload) seen
  | getBlocks peerId payload =>
      exact NodeRuntime.attends_of_aloof (NodeRuntime.all_handleGetBlocks peerId payload) seen
  | transaction peerId payload =>
      exact NodeRuntime.attends_handleTransaction peerId payload false seen
  | transactionSubmit peerId payload =>
      exact NodeRuntime.attends_handleTransaction peerId payload true seen
  | handshake peerId =>
      exact NodeRuntime.attends_of_aloof (NodeRuntime.all_maybeStartSync peerId) seen
  | submit t => exact NodeRuntime.attends_submitSignedTransaction h seen
  | mined block => exact NodeRuntime.attends_of_aloof (NodeRuntime.all_foundLocally block) seen
  | peers snapshot =>
      exact Program.vouched_last fun n _ hn => ⟨hn.setPeers h.1 h.2, Or.inl rfl⟩

omit [DecidableEq ν] in
/-- A message that has a link goes over it. -/
theorem mem_route_send {v u : ν} {p q : UInt64} (hlink : (p, u, q) ∈ links v)
    (type : MessageType) (payload : Bytes) :
    (⟨u, q, type, payload⟩ : Envelope ν) ∈ (Output.send p type payload).route (links v) :=
  List.mem_map.mpr ⟨(p, u, q), List.mem_filter.mpr ⟨hlink, decide_eq_true rfl⟩, rfl⟩

section attended
variable {net : Correspondence ν} {seen : ν → Set Unit}

/-- A thread that owes something still does after a move, or the node has put it out. -/
theorem surely_node {Q : Output → Prop} {u : ν} (hready : (net.node u).state.Ready links full u)
    {th : Task} (hth : th ∈ (net.node u).threads)
    (hsurely : th.Surely (Ready links full u) Q) (w : ν) (e : Move NodeRuntime.Call StorageIo) :
    (∃ th' ∈ ((net.move κ links w e).node u).threads, th'.Surely (Ready links full u) Q) ∨
      u = w ∧ ∃ o ∈ (net.node u).emitted e, Q o := by
  by_cases hu : u = w
  · subst hu
    rw [node_move_self]
    rcases System.surely_move hready hth hsurely e with hstill | hout
    · exact Or.inl hstill
    · exact Or.inr ⟨rfl, hout⟩
  · rw [node_move_of_ne net e hu]
    exact Or.inl ⟨th, hth, hsurely⟩

/-- A move leaves under way what was. -/
theorem Underway.move (hlinks : Mutual links)
    (hready : ∀ u, (net.node u).state.Ready links full u) {v u : ν} {p q : UInt64} {id : Hash256}
    (hlink : (p, u, q) ∈ links v) (h : net.Underway κ links full v p u q id) (w : ν)
    (e : Move NodeRuntime.Call StorageIo) :
    (net.move κ links w e).Underway κ links full v p u q id := by
  have hflight : ∀ env ∈ net.flight, env ∈ (net.move κ links w e).flight :=
    fun env henv => List.mem_append_left _ henv
  have hroute : ∀ {v u : ν} {p q : UInt64} {type : MessageType} {payload : Bytes},
      (p, u, q) ∈ links v → Output.send p type payload ∈ (net.node v).emitted e → v = w →
        (⟨u, q, type, payload⟩ : Envelope ν) ∈ (net.move κ links w e).flight := by
    rintro v u p q type payload hlink ho rfl
    exact List.mem_append_right _ (List.mem_flatMap.mpr ⟨_, ho, mem_route_send hlink _ _⟩)
  rcases h with ⟨t, ht, hid, th, hth, hsurely⟩ | ⟨t, ht, hid, hmem⟩ | ⟨th, hth, hsurely⟩
    | ⟨payload, hformed, hid, hmem⟩
  · rcases surely_node (κ := κ) (hready v) hth hsurely w e with hstill | ⟨hv, o, ho, rfl⟩
    · exact Or.inl ⟨t, ht, hid, hstill⟩
    · -- the submission sets out
      exact Or.inr (Or.inl ⟨t, ht, hid, hroute hlink ho hv⟩)
  · exact Or.inr (Or.inl ⟨t, ht, hid, hflight _ hmem⟩)
  · rcases surely_node (κ := κ) (hready u) hth hsurely w e
      with hstill | ⟨hu, o, ho, payload, rfl, hformed, hid⟩
    · exact Or.inr (Or.inr (Or.inl hstill))
    · -- the result sets out, over the same session
      exact Or.inr (Or.inr (Or.inr
        ⟨payload, hformed, hid, hroute (hlinks _ _ _ _ hlink) ho hu⟩))
  · exact Or.inr (Or.inr (Or.inr ⟨payload, hformed, hid, hflight _ hmem⟩))

/-- A move leaves under way what was, and a submission that it notes is on its way. -/
theorem Attended.move (hlinks : Mutual links) (h : net.Attended κ links full seen) (w : ν)
    {e : Move NodeRuntime.Call StorageIo}
    (hcall : ∀ call, e = .start call → Attends κ links full w (call.task κ) (seen w)) :
    ∃ seen', (net.move κ links w e).Attended κ links full seen' := by
  obtain ⟨hheard, hdone⟩ := Heard.move (κ := κ) links
    (fun _ _ _ _ _ _ _ _ hentrusts => hentrusts) h.heard w hcall
  refine ⟨_, hheard, fun v hstate => ?_⟩
  have hbefore : (net.node v).state.transaction
        = ((net.move κ links w e).node v).state.transaction →
      ∃ id p u q, ((net.move κ links w e).node v).state.transaction
          = ⟨.submitted, some id, some p⟩ ∧
        (p, u, q) ∈ links v ∧ full u ∧ (net.move κ links w e).Underway κ links full v p u q id := by
    intro hsame
    rw [← hsame] at hstate ⊢
    obtain ⟨id, p, u, q, htransaction, hlink, hu, hunder⟩ := h.waiting v hstate
    exact ⟨id, p, u, q, htransaction, hlink, hu, hunder.move hlinks h.heard.state hlink w e⟩
  by_cases hv : v = w
  · subst hv
    rcases hdone with ⟨hsame, -⟩ | ⟨rest, hrest, hentrusts⟩
    · exact hbefore (congrArg NodeRuntime.transaction hsame.symm)
    rcases hentrusts with hsame | hnot | ⟨t, ht, p, u, q, hlink, hu, htransaction, hsurely⟩
    · exact hbefore hsame.symm
    · exact absurd hstate hnot
    · exact ⟨t.id κ, p, u, q, htransaction, hlink, hu,
        Or.inl ⟨t, ht, rfl, rest, hrest, hsurely⟩⟩
  · exact hbefore (by rw [node_move_of_ne net e hv])

/-- A change of a node that leaves the threads and the flight alone. -/
theorem Underway.change {v u : ν} {p q : UInt64} {id : Hash256}
    (h : net.Underway κ links full v p u q id) (w : ν) (f : NodeRuntime → NodeRuntime) :
    (net.change w f).Underway κ links full v p u q id := by
  have hthreads : ∀ u, ((net.change w f).node u).threads = (net.node u).threads := by
    intro u
    by_cases hu : u = w
    · subst hu
      rw [node_change_self]
    · rw [node_change_of_ne net f hu]
  rw [Underway, hthreads, hthreads]
  exact h

omit [DecidableEq ν] in
/-- A message leaves the flight: it was the one under way, or that still is. -/
theorem Underway.drop {v u : ν} {p q : UInt64} {id : Hash256} {k : Nat} {env : Envelope ν}
    (hk : net.flight[k]? = some env) (h : net.Underway κ links full v p u q id) :
    ({ net with flight := net.flight.eraseIdx k } : Correspondence ν).Underway κ links full v p u q
        id ∨
      (∃ t : SignedTransaction, t.Verified κ ∧ t.id κ = id ∧
        env = ⟨u, q, .transactionSubmit, t.serialize⟩) ∨
      ∃ payload, WellFormedResult payload ∧ resultBlockId payload = id ∧
        env = ⟨v, p, .transactionResult, payload⟩ := by
  have hleft : ∀ other ∈ net.flight, env = other ∨ other ∈ net.flight.eraseIdx k := by
    intro other hother
    obtain ⟨j, hj⟩ := List.mem_iff_getElem?.mp hother
    by_cases hjk : j = k
    · subst hjk
      rw [hk] at hj
      exact Or.inl (Option.some.inj hj)
    · exact Or.inr (List.mem_eraseIdx_iff_getElem?.mpr ⟨j, hjk, hj⟩)
  rcases h with hsender | ⟨t, ht, hid, hmem⟩ | hthread | ⟨payload, hformed, hid, hmem⟩
  · exact Or.inl (Or.inl hsender)
  · rcases hleft _ hmem with hthis | hstill
    · exact Or.inr (Or.inl ⟨t, ht, hid, hthis⟩)
    · exact Or.inl (Or.inr (Or.inl ⟨t, ht, hid, hstill⟩))
  · exact Or.inl (Or.inr (Or.inr (Or.inl hthread)))
  · rcases hleft _ hmem with hthis | hstill
    · exact Or.inr (Or.inr ⟨payload, hformed, hid, hthis⟩)
    · exact Or.inl (Or.inr (Or.inr (Or.inr ⟨payload, hformed, hid, hstill⟩)))

/-- What a node has to say about its own changes: it is still as it should be, and if it waits,
it did so before. -/
theorem Attended.change (h : net.Attended κ links full seen) (w : ν)
    {f : NodeRuntime → NodeRuntime} (hready : (f (net.node w).state).Ready links full w)
    (hkept : (f (net.node w).state).transaction.state = .submitted →
      (f (net.node w).state).transaction = (net.node w).state.transaction) :
    (net.change w f).Attended κ links full ((net.change w f).look (fun _ => ∅) seen) := by
  refine ⟨h.heard.change (fun _ _ _ _ _ _ _ _ hentrusts => hentrusts) w hready, fun v hstate => ?_⟩
  have hsame : ((net.change w f).node v).state.transaction = (net.node v).state.transaction := by
    by_cases hv : v = w
    · subst hv
      rw [node_change_self] at hstate ⊢
      exact hkept hstate
    · rw [node_change_of_ne net f hv]
  rw [hsame] at hstate ⊢
  obtain ⟨id, p, u, q, htransaction, hlink, hu, hunder⟩ := h.waiting v hstate
  exact ⟨id, p, u, q, htransaction, hlink, hu, hunder.change w f⟩

/-- Who still waits after a result has not been answered by it. -/
theorem waiting_handleTransactionResult {n : NodeRuntime} {session : UInt64} {payload : Bytes}
    (h : (n.handleTransactionResult session payload).transaction.state = .submitted) :
    n.handleTransactionResult session payload = n ∧
      ¬ (WellFormedResult payload ∧ n.transaction.pendingId = some (resultBlockId payload) ∧
        n.transaction.pendingPeer = some session) := by
  rw [NodeRuntime.handleTransactionResult] at h ⊢
  split at h
  · rename_i hignored
    rw [if_pos hignored]
    refine ⟨rfl, fun hall => ?_⟩
    rcases hignored with hno | hno | hno
    · exact hno hall.1
    · exact hno hall.2.1
    · exact hno hall.2.2
  · exfalso
    dsimp only at h
    split at h <;> cases h

/-- A result arrives: who waits for it does not wait any longer. -/
theorem Attended.result (h : net.Attended κ links full seen) {k : Nat} {env : Envelope ν}
    (hk : net.flight[k]? = some env) (hresult : env.message.1 = .transactionResult) :
    let rest : Correspondence ν := { net with flight := net.flight.eraseIdx k }
    ∃ seen', (rest.change env.target
      fun n => n.handleTransactionResult env.session env.message.2).Attended κ links full
        seen' := by
  intro rest
  refine ⟨_, Heard.change (fun _ _ _ _ _ _ _ _ hentrusts => hentrusts) (h.heard.drop k)
    env.target ?_, fun v hstate => ?_⟩
  · have hready := h.heard.state env.target
    show (NodeRuntime.handleTransactionResult _ _ _).Ready links full env.target
    rw [NodeRuntime.handleTransactionResult]
    split
    · exact hready
    · exact ⟨hready.open_, hready.stores, hready.services⟩
  -- a node that still waits has not been told, or what it was told was not for it
  have hkept : ((rest.change env.target
        fun n => n.handleTransactionResult env.session env.message.2).node v).state.transaction
          = (net.node v).state.transaction ∧
      (v = env.target → ¬ (WellFormedResult env.message.2 ∧
        (net.node v).state.transaction.pendingId = some (resultBlockId env.message.2) ∧
        (net.node v).state.transaction.pendingPeer = some env.session)) := by
    by_cases hv : v = env.target
    · subst hv
      rw [node_change_self] at hstate ⊢
      obtain ⟨hsame, hnot⟩ := waiting_handleTransactionResult hstate
      exact ⟨congrArg NodeRuntime.transaction hsame, fun _ => hnot⟩
    · rw [node_change_of_ne rest _ hv]
      exact ⟨rfl, fun htarget => absurd htarget hv⟩
  obtain ⟨hsame, hnot⟩ := hkept
  rw [hsame] at hstate ⊢
  obtain ⟨id, p, u, q, htransaction, hlink, hu, hunder⟩ := h.waiting v hstate
  refine ⟨id, p, u, q, htransaction, hlink, hu, ?_⟩
  rcases hunder.drop hk with hstill | ⟨t, -, -, rfl⟩ | ⟨payload, hformed, hid, rfl⟩
  · exact hstill.change env.target _
  · cases hresult
  · refine absurd ⟨hformed, ?_, ?_⟩ (hnot rfl)
    · rw [htransaction, hid]
    · rw [htransaction]

/-- A submission arrives at its full node, and is under way there. -/
theorem Attended.start (hlinks : Mutual links) (h : net.Attended κ links full seen) {k : Nat}
    {env : Envelope ν} (hk : net.flight[k]? = some env) {handler : NodeRuntime.Call}
    (hcall : env.call = some handler) :
    let rest : Correspondence ν := { net with flight := net.flight.eraseIdx k }
    ∃ seen', (rest.move κ links env.target (.start handler)).Attended κ links full seen' := by
  intro rest
  have hfair : Fair κ links full (.call env.target handler) := by
    rw [Envelope.call] at hcall
    split at hcall <;> cases hcall <;> exact trivial
  have hrest : ∀ v, (rest.node v).state.Ready links full v := h.heard.state
  obtain ⟨hheard, -⟩ := Heard.move (κ := κ) links
    (fun _ _ _ _ _ _ _ _ hentrusts => hentrusts) (h.heard.drop k) env.target
    (e := .start handler) (fun call heq => by cases heq; exact attends_call hfair _)
  have hsame : ∀ v, ((rest.move κ links env.target (.start handler)).node v).state
      = (net.node v).state := by
    intro v
    by_cases hv : v = env.target
    · subst hv
      rw [node_move_self]
      rfl
    · rw [node_move_of_ne rest _ hv]
  refine ⟨_, hheard, fun v hstate => ?_⟩
  rw [hsame] at hstate ⊢
  obtain ⟨id, p, u, q, htransaction, hlink, hu, hunder⟩ := h.waiting v hstate
  refine ⟨id, p, u, q, htransaction, hlink, hu, ?_⟩
  rcases hunder.drop hk with hstill | ⟨t, ht, rfl, rfl⟩ | ⟨payload, -, -, rfl⟩
  · exact hstill.move hlinks hrest hlink _ _
  · cases hcall
    refine Or.inr (Or.inr (Or.inl ⟨NodeRuntime.handleTransaction κ q t.serialize true, ?_,
      NodeRuntime.surely_handleTransaction (fun n hn => ?_) ht⟩))
    · rw [node_move_self]
      exact List.mem_append_right _ (List.mem_singleton_self _)
    · obtain ⟨hchain, hpool⟩ := hn.stores hu
      exact ⟨hchain, hpool, hn.open_ _ (hlinks _ _ _ _ hlink)⟩
  · cases hcall

/-- One event. -/
theorem Attended.step (hlinks : Mutual links) (h : net.Attended κ links full seen)
    {e : SubmissionEvent ν} (he : Fair κ links full e) :
    ∃ seen', (net.step κ links e).Attended κ links full seen' := by
  cases e with
  | call v handler =>
      refine h.move hlinks v fun call heq => ?_
      cases heq
      exact attends_call he (seen v)
  | advance v k io => exact h.move hlinks v fun call heq => by cases heq
  | mining v status =>
      have hready := h.heard.state v
      exact ⟨_, h.change v (f := fun n => { n with mining := status })
        ⟨hready.open_, hready.stores, hready.services⟩ fun _ => rfl⟩
  | deliver k =>
      rw [Correspondence.step]
      cases hk : net.flight[k]? with
      | none => exact ⟨seen, h⟩
      | some env =>
          dsimp only
          split
          · exact h.result hk ‹_›
          · rename_i hresult
            cases hcall : env.call with
            | none =>
                -- a message that no handler of the node takes
                refine ⟨seen, ⟨h.heard.state, h.heard.threads⟩, fun v hstate => ?_⟩
                obtain ⟨id, p, u, q, htransaction, hlink, hu, hunder⟩ := h.waiting v hstate
                refine ⟨id, p, u, q, htransaction, hlink, hu, ?_⟩
                rcases hunder.drop hk with hstill | ⟨t, -, -, rfl⟩ | ⟨payload, -, -, rfl⟩
                · exact hstill
                · cases hcall
                · exact absurd rfl hresult
            | some handler => exact h.start hlinks hk hcall

theorem Attended.run (hlinks : Mutual links) {events : List (SubmissionEvent ν)} :
    ∀ {net : Correspondence ν} {seen : ν → Set Unit}, net.Attended κ links full seen →
      (∀ e ∈ events, Fair κ links full e) →
        ∃ seen',
          (Runs.run (Correspondence.step κ links) net events).Attended κ links full seen' := by
  induction events with
  | nil => exact fun h _ => ⟨_, h⟩
  | cons e events ih =>
      intro net seen h hfair
      obtain ⟨seen', hnext⟩ := h.step hlinks (hfair e List.mem_cons_self)
      exact ih hnext fun e' he' => hfair e' (List.mem_cons_of_mem _ he')

end attended

/-- In every graph of sessions that stay and every run: when no message is in flight and all
handlers have ended, no wallet waits for an answer. -/
theorem submissions_answered (κ : Crypto) (links : Links ν) (hlinks : Mutual links)
    (full : ν → Prop) (start : ν → NodeRuntime) (hready : ∀ v, (start v).Ready links full v)
    (hidle : ∀ v, (start v).transaction.state ≠ .submitted) (events : List (SubmissionEvent ν))
    (hfair : ∀ e ∈ events, Fair κ links full e) :
    let after := Runs.run (step κ links) (init start) events
    after.flight = [] → (∀ v, ∀ th ∈ (after.node v).threads, th = .done) →
      ∀ v, (after.node v).state.transaction.state ≠ .submitted := by
  intro after hflight hdone v hstate
  have hinit : (init start).Attended κ links full fun _ => ∅ :=
    ⟨⟨hready, fun v p hp => absurd hp List.not_mem_nil⟩, fun v hwaits => absurd hwaits (hidle v)⟩
  obtain ⟨seen, hafter⟩ := hinit.run hlinks hfair
  obtain ⟨id, p, u, q, -, -, -, hunder⟩ := hafter.waiting v hstate
  rcases hunder with ⟨t, -, -, th, hth, hsurely⟩ | ⟨t, -, -, hmem⟩ | ⟨th, hth, hsurely⟩
    | ⟨payload, -, -, hmem⟩
  · rw [hdone v th hth] at hsurely
    exact hsurely
  · rw [show (Runs.run (step κ links) (init start) events).flight = [] from hflight] at hmem
    exact absurd hmem List.not_mem_nil
  · rw [hdone u th hth] at hsurely
    exact hsurely
  · rw [show (Runs.run (step κ links) (init start) events).flight = [] from hflight] at hmem
    exact absurd hmem List.not_mem_nil

theorem submissions_answered_couple :
    let after := Runs.run (step reference coupleLinks) (init coupleStart) answeredEvents
    after.flight = [] ∧ ∀ v, (after.node v).state.transaction.state ≠ .submitted := by
  have hready : ∀ v, (coupleStart v).Ready coupleLinks (fun u => u = true) v := by
    have hfacts : ∀ v, (coupleLinks v).all (fun l => (coupleStart v).reaches l.1) = true ∧
        (v = true → (coupleStart v).chainStore.isSome = true ∧
          (coupleStart v).mempoolStore.isSome = true) ∧
        ∀ peer ∈ (coupleStart v).peers, peer.handshakeComplete = true → peer.isFullNode = true →
          peer.id = 1 ∧ v = false :=
      Bool.forall_bool.mpr ⟨by decide +kernel, by decide +kernel⟩
    intro v
    obtain ⟨hopen, hstores, hservices⟩ := hfacts v
    refine ⟨List.all_eq_true.mp hopen, hstores, fun peer hpeer hcomplete hoffers => ?_⟩
    obtain ⟨hid, hv⟩ := hservices peer hpeer hcomplete hoffers
    rw [hid, hv]
    exact ⟨true, 1, List.mem_singleton_self _, rfl⟩
  have hfair : ∀ e ∈ answeredEvents, Fair reference coupleLinks (fun u => u = true) e := by
    have hverified : minerPayment.Verified reference :=
      SignedTransaction.Obtainable.verified reference reference_signatureLaw
        PoolDatabase.obtainable_minerPayment
    intro e he
    simp only [answeredEvents, askingEvents, List.replicate, List.mem_append, List.mem_cons,
      List.not_mem_nil, or_false] at he
    rcases he with ((rfl | rfl | rfl | rfl | rfl) | rfl | rfl | rfl | rfl) | rfl
    · exact hverified
    all_goals exact trivial
  have hquiet : (Runs.run (step reference coupleLinks) (init coupleStart)
        answeredEvents).flight.length = 0 ∧
      ((Runs.run (step reference coupleLinks) (init coupleStart)
        answeredEvents).node false).threads.all Program.ended = true ∧
      ((Runs.run (step reference coupleLinks) (init coupleStart)
        answeredEvents).node true).threads.all Program.ended = true := by
    decide +kernel
  obtain ⟨hnone, hboth⟩ := hquiet
  have hflight := List.eq_nil_of_length_eq_zero hnone
  have hended : ∀ v, ((Runs.run (step reference coupleLinks) (init coupleStart)
      answeredEvents).node v).threads.all Program.ended = true := Bool.forall_bool.mpr hboth
  have hidle : ∀ v, (coupleStart v).transaction.state ≠ .submitted :=
    Bool.forall_bool.mpr ⟨by decide +kernel, by decide +kernel⟩
  exact ⟨hflight, submissions_answered reference coupleLinks mutual_coupleLinks (fun u => u = true)
    coupleStart hready hidle answeredEvents hfair hflight fun v th hth =>
      Program.ended_iff.mp (List.all_eq_true.mp (hended v) th hth)⟩

end Correspondence

end BBC
