/-
# `BBC.Node.MiningDebts` — a mining-only process waits for nobody who is gone

In two stages of a cycle the process waits: for the template of its pending request,
and for the result of its submitted block.  `Owing` says that whatever is waited for is
owed by an open session.  It is kept by every event except for these:

    a session ends that owes the reply
    the template that is waited for fails a check; the request stays pending
    the result that is waited for is malformed; the state stays `submitted`
    a block is found when the source has gone; the submission is dropped
    a full node is recorded after the end of its session; a request goes to nobody

Each of these leaves `mining_cycle_pending` true for good.
-/
import BBC.Node.MiningCycle

namespace BBC

open Runs (Along)

/-- The process waits for the reply. -/
def Debt.Waited (n : NodeRuntime) : Debt → Prop
  | .template peerId requestId =>
      n.mining.pendingTemplateRequest = some requestId ∧ n.mining.sourcePeer = some peerId
  | .result peerId blockId =>
      n.mining.state = .submitted ∧ n.mining.foundBlockId = some blockId ∧
        n.mining.sourcePeer = some peerId

namespace Miner

variable {κ : Crypto} {n n' : NodeRuntime} {m : Miner} {e : MiningEvent}

/-- Every reply that is waited for is owed by an open session. -/
def Owing (m : Miner) : Prop :=
  ∀ debt : Debt, debt.Waited m.node → debt ∈ m.owed ∧ m.isOpen debt.peerId = true

/-- Every full node that `peers()` shows after its handshake has an open session. -/
def Alive (m : Miner) : Prop := ∀ peer, Offers m.node peer → peer.id ∉ m.ended

/-! ## The conditions of a run -/

/-- The template passes the checks of `handle_block_template`. -/
def AcceptsTemplate (κ : Crypto) (n : NodeRuntime) (peerId : UInt64) (payload : Bytes) : Prop :=
  8 < payload.length ∧ ∃ candidate, deserializeBlock κ (payload.drop 8) = .ok candidate ∧
    n.expectsTemplate κ peerId candidate

/-- A full node is not recorded after its end, a debtor does not leave, a reply that is
waited for is of use, and a found block can be submitted. -/
def Kept (κ : Crypto) (m : Miner) : MiningEvent → Prop
  | .handshake peer _ => peer.isFullNode = true → peer.id ∉ m.ended
  | .disconnect peerId =>
      ¬ ((m.node.mining.pendingTemplateRequest.isSome = true ∨ m.node.mining.state = .submitted) ∧
        m.node.mining.sourcePeer = some peerId)
  | .template peerId payload =>
      m.node.mining.sourcePeer = some peerId →
        m.node.mining.pendingTemplateRequest = some (readU64Le payload 0) →
        AcceptsTemplate κ m.node peerId payload
  | .result peerId payload =>
      m.node.mining.sourcePeer = some peerId → m.node.mining.state = .submitted →
        m.node.mining.foundBlockId = some (NodeRuntime.resultBlockId payload) →
        NodeRuntime.WellFormedResult payload
  | .batch =>
      ∀ worker, m.node.mining.worker = some worker → (finds κ m.node).isSome = true →
        m.isOpen worker.peerId = true
  | _ => True

/-! ## Every event -/

/-- The handler starts no wait. -/
structure NoNewWait (n n' : NodeRuntime) : Prop where
  pending : ∀ requestId, n'.mining.pendingTemplateRequest = some requestId →
    n.mining.pendingTemplateRequest = some requestId
  source : n'.mining.sourcePeer = n.mining.sourcePeer
  state : n'.mining.state = .submitted → n.mining.state = .submitted
  found : n'.mining.state = .submitted → n'.mining.foundBlockId = n.mining.foundBlockId

theorem NoNewWait.waited (h : NoNewWait n n') {debt : Debt} (hwaited : debt.Waited n') :
    debt.Waited n := by
  cases debt with
  | template peerId requestId =>
      obtain ⟨hpending, hsource⟩ := hwaited
      exact ⟨h.pending requestId hpending, h.source.symm.trans hsource⟩
  | result peerId blockId =>
      obtain ⟨hstate, hfound, hsource⟩ := hwaited
      exact ⟨h.state hstate, (h.found hstate).symm.trans hfound, h.source.symm.trans hsource⟩

theorem SameCycle.noNewWait (h : SameCycle n n')
    (hstate : n'.mining.state = n.mining.state ∨ n'.mining.state ≠ .submitted) :
    NoNewWait n n' where
  pending := by
    intro requestId hpending
    rw [← h.pending]
    exact hpending
  source := h.source
  state := by
    intro hsubmitted
    rcases hstate with heq | hne
    · exact heq.symm.trans hsubmitted
    · exact absurd hsubmitted hne
  found _ := h.found

theorem isOpen_eq_true {peerId : UInt64} :
    m.isOpen peerId = true ↔ m.node.reaches peerId = true ∧ peerId ∉ m.ended := by
  simp [isOpen]

theorem endedAt_eq (h : e.changesPeers = false) : m.endedAt e = m.ended := by
  cases e with
  | handshake | disconnect => cases h
  | _ => rfl

/-- An event that neither starts nor ends a session. -/
theorem isOpen_step (hcycle : Cycle m.node) (hstays : e.changesPeers = false) (peerId : UInt64) :
    (m.step κ e).isOpen peerId = m.isOpen peerId := by
  rw [isOpen, isOpen, step, NodeRuntime.reaches, NodeRuntime.reaches, NodeRuntime.peers,
    NodeRuntime.peers, endedAt_eq hstays, network_react κ hcycle hstays]

/-- The rule for an event that starts no wait: it ends none of the sessions that are
waited for, and pays none of their debts without ending the wait. -/
theorem Owing.of_noNewWait (h : Owing m) (hwait : NoNewWait m.node (m.react κ e).1)
    (hspares : ∀ debt : Debt, debt.Waited m.node → debt.Waited (m.react κ e).1 →
      e.spares debt = true)
    (hopen : ∀ debt : Debt, debt.Waited m.node → m.isOpen debt.peerId = true →
      (m.step κ e).isOpen debt.peerId = true) : Owing (m.step κ e) := by
  intro debt hwaited
  have hbefore := hwait.waited hwaited
  obtain ⟨hdebt, hbeforeOpen⟩ := h debt hbefore
  exact ⟨List.mem_append_left _ (List.mem_filter.mpr ⟨hdebt, hspares debt hbefore hwaited⟩),
    hopen debt hbefore hbeforeOpen⟩

/-- The same for an event of the process itself. -/
theorem Owing.of_stays (h : Owing m) (hcycle : Cycle m.node)
    (hwait : NoNewWait m.node (m.react κ e).1) (hspares : ∀ debt, e.spares debt = true)
    (hstays : e.changesPeers = false) : Owing (m.step κ e) := by
  refine h.of_noNewWait hwait (fun debt _ _ => hspares debt) ?_
  exact fun debt _ hopen => (isOpen_step hcycle hstays debt.peerId).trans hopen

theorem owing_handshake (hcycle : Cycle m.node) (h : Owing m) (peer : PeerStatus)
    (numbered : peer.id ≠ 0) : Owing (m.step κ (.handshake peer numbered)) := by
  refine h.of_noNewWait (SameCycle.noNewWait ⟨rfl, rfl, rfl, rfl, rfl, rfl, rfl⟩ (Or.inl rfl))
    (fun _ _ _ => rfl) fun _ _ hopen => ?_
  obtain ⟨hreach, hnew⟩ := isOpen_eq_true.mp hopen
  exact isOpen_eq_true.mpr ⟨NodeRuntime.reaches_greeted hcycle.solitary.network peer hreach, hnew⟩

/-- The peer that is waited for. -/
theorem source_of_waited {debt : Debt} (h : debt.Waited n) :
    (n.mining.pendingTemplateRequest.isSome = true ∨ n.mining.state = .submitted) ∧
      n.mining.sourcePeer = some debt.peerId := by
  cases debt with
  | template peerId requestId => exact ⟨Or.inl (by rw [h.1]; rfl), h.2⟩
  | result peerId blockId => exact ⟨Or.inr h.1, h.2.2⟩

theorem owing_disconnect (hcycle : Cycle m.node) (h : Owing m) {peerId : UInt64}
    (hkept : Kept κ m (.disconnect peerId)) : Owing (m.step κ (.disconnect peerId)) := by
  have hne : ∀ debt : Debt, debt.Waited m.node → debt.peerId ≠ peerId := by
    rintro debt hwaited rfl
    exact hkept (source_of_waited hwaited)
  refine h.of_noNewWait (SameCycle.noNewWait ⟨rfl, rfl, rfl, rfl, rfl, rfl, rfl⟩ (Or.inl rfl))
    (fun debt hwaited _ => decide_eq_true (hne debt hwaited)) ?_
  intro debt hwaited hopen
  obtain ⟨hreach, hnew⟩ := isOpen_eq_true.mp hopen
  refine isOpen_eq_true.mpr
    ⟨NodeRuntime.reaches_parted hcycle.solitary.network (hne debt hwaited) hreach, ?_⟩
  show debt.peerId ∉ peerId :: m.ended
  simpa [hne debt hwaited] using hnew

/-- A template pays no debt of a result, and a result none of a template. -/
theorem spares_template_result (peerId debtor : UInt64) (payload : Bytes) (blockId : Hash256) :
    (MiningEvent.template peerId payload).spares (.result debtor blockId) = true := by
  simp [MiningEvent.spares]

theorem spares_result_template (peerId debtor requestId : UInt64) (payload : Bytes) :
    (MiningEvent.result peerId payload).spares (.template debtor requestId) = true := by
  simp [MiningEvent.spares]

/-- A template that is taken ends all waits. -/
theorem not_waited_takeTemplate (peerId : UInt64) (candidate : Block) (debt : Debt) :
    ¬ debt.Waited (n.takeTemplate peerId candidate) := by
  have hpending : (n.takeTemplate peerId candidate).mining.pendingTemplateRequest = none := by
    rw [NodeRuntime.takeTemplate]
    cases n.mining.deferStart <;> rfl
  have hstate : (n.takeTemplate peerId candidate).mining.state ≠ .submitted := by
    rw [NodeRuntime.takeTemplate]
    cases n.mining.deferStart <;> exact fun h => MiningState.noConfusion h
  cases debt with
  | template debtor requestId =>
      rintro ⟨hrequested, -⟩
      rw [hpending] at hrequested
      cases hrequested
  | result debtor blockId => exact fun h => hstate h.1

theorem owing_template (hcycle : Cycle m.node) (h : Owing m) {peerId : UInt64} {payload : Bytes}
    (hkept : Kept κ m (.template peerId payload)) :
    Owing (m.step κ (.template peerId payload)) := by
  have hnode : (m.react κ (.template peerId payload)).1
      = m.node.handleBlockTemplate κ peerId payload := rfl
  rcases handleBlockTemplate_cases κ m.node peerId payload with ⟨hsame, hignored⟩ |
    ⟨candidate, -, -, -, htaken⟩
  · rw [hsame] at hnode
    have hwait : NoNewWait m.node (m.react κ (.template peerId payload)).1 := by
      rw [hnode]
      exact (SameCycle.refl m.node).noNewWait (Or.inl rfl)
    refine h.of_noNewWait hwait ?_ fun _ _ hopen => (isOpen_step hcycle rfl _).trans hopen
    intro debt hwaited _
    cases debt with
    | result debtor blockId => exact spares_template_result ..
    | template debtor requestId =>
        refine decide_eq_true ?_
        intro heq
        cases heq
        -- the template that is waited for would have been taken
        obtain ⟨hsize, haccepted⟩ := hkept hwaited.2 hwaited.1
        exact hignored ⟨⟨hcycle.solitary.miner, hsize, hwaited.2, hwaited.1⟩, haccepted⟩
  · intro debt hwaited
    refine absurd hwaited ?_
    show ¬ debt.Waited (m.node.handleBlockTemplate κ peerId payload)
    rw [htaken]
    exact not_waited_takeTemplate peerId candidate debt

theorem owing_block (hcycle : Cycle m.node) (h : Owing m) (peerId : UInt64) (payload : Bytes)
    (submission : Bool) : Owing (m.step κ (.block peerId payload submission)) := by
  obtain ⟨hsame, hstate, -⟩ :=
    sameCycle_handleBlock κ hcycle.solitary.chain peerId payload submission fun _ => {}
  exact h.of_stays hcycle (hsame.noNewWait hstate) (fun _ => rfl) rfl

theorem owing_result (hcycle : Cycle m.node) (h : Owing m) {peerId : UInt64} {payload : Bytes}
    (hkept : Kept κ m (.result peerId payload)) : Owing (m.step κ (.result peerId payload)) := by
  have hnode : (m.react κ (.result peerId payload)).1 = m.node.handleBlockResult payload := rfl
  rcases handleBlockResult_cases m.node payload with ⟨hsame, hignored⟩ |
    ⟨hstate, hfields, -⟩
  · rw [hsame] at hnode
    have hwait : NoNewWait m.node (m.react κ (.result peerId payload)).1 := by
      rw [hnode]
      exact (SameCycle.refl m.node).noNewWait (Or.inl rfl)
    refine h.of_noNewWait hwait ?_ fun _ _ hopen => (isOpen_step hcycle rfl _).trans hopen
    intro debt hwaited _
    cases debt with
    | template debtor requestId => exact spares_result_template ..
    | result debtor blockId =>
        refine decide_eq_true ?_
        intro heq
        cases heq
        -- the result that is waited for would have ended the wait
        obtain ⟨hsubmitted, hfound, hsource⟩ := hwaited
        exact hignored ⟨hkept hsource hsubmitted hfound, hfound⟩
  · refine h.of_noNewWait (hfields.noNewWait (Or.inr hstate)) ?_ ?_
    · intro debt _ hwaited
      cases debt with
      | template debtor requestId => exact spares_result_template ..
      | result debtor blockId => exact absurd hwaited.1 hstate
    · exact fun debt _ hopen => (isOpen_step hcycle rfl _).trans hopen

/-- The debt of a request. -/
theorem debts_templateRequest (κ : Crypto) (peerId requestId : UInt64) (reward : Address) :
    (Output.send peerId .templateRequest
      (NodeRuntime.encodeTemplateRequest requestId reward)).debts κ
      = [.template peerId requestId] := by
  have hdrop : (NodeRuntime.encodeTemplateRequest requestId reward).drop 0
      = encodeU64Le requestId ++ reward.hash.toList := rfl
  have hread := readU64Le_of_drop hdrop
  rw [Output.debts, hread]

/-- The debt of a submission. -/
theorem debts_blockSubmit (κ : Crypto) (peerId : UInt64) (mined : Block) :
    (Output.send peerId .blockSubmit mined.serialize).debts κ
      = [.result peerId (mined.id κ)] := by
  have hheader : mined.serialize.take blockHeaderSize = mined.serializeHeader :=
    List.take_left' mined.length_serializeHeader
  rw [Output.debts, hheader]
  rfl

/-- Nothing is waited for but a reply whose question is among the outputs. -/
theorem owing_of_output {debt : Debt} {output : Output}
    (hwaited : ∀ other : Debt, other.Waited (m.react κ e).1 → other = debt)
    (houtput : output ∈ (m.react κ e).2) (hdebt : output.debts κ = [debt])
    (hopen : (m.step κ e).isOpen debt.peerId = true) : Owing (m.step κ e) := by
  intro other hother
  rw [hwaited other hother]
  refine ⟨List.mem_append_right _ (List.mem_flatMap.mpr ⟨output, houtput, ?_⟩), hopen⟩
  rw [hdebt]
  exact List.mem_singleton_self _

/-- After a request only its template is waited for. -/
theorem waited_noteTemplateRequest {peerId : UInt64} {deferWork : Bool} {debt : Debt}
    (h : debt.Waited (n.noteTemplateRequest peerId deferWork)) :
    debt = .template peerId n.mining.nextTemplateRequest := by
  cases debt with
  | template debtor requestId =>
      obtain ⟨hpending, hsource⟩ := h
      cases hpending
      cases hsource
      rfl
  | result debtor blockId => cases h.1

/-- An event that sends a request. -/
theorem owing_request (hcycle : Cycle m.node) (halive : Alive m) {source : PeerStatus}
    {deferWork : Bool} {reward : Address} (hoffers : Offers m.node source)
    (hstays : e.changesPeers = false)
    (hnode : (m.react κ e).1 = m.node.noteTemplateRequest source.id deferWork)
    (houtputs : (m.react κ e).2 = [.send source.id .templateRequest
      (NodeRuntime.encodeTemplateRequest m.node.mining.nextTemplateRequest reward)]) :
    Owing (m.step κ e) := by
  refine owing_of_output ?_ (houtputs ▸ List.mem_singleton_self _)
    (debts_templateRequest κ source.id m.node.mining.nextTemplateRequest reward) ?_
  · intro debt hwaited
    rw [hnode] at hwaited
    exact waited_noteTemplateRequest hwaited
  · rw [isOpen_step hcycle hstays]
    exact isOpen_eq_true.mpr ⟨hoffers.reaches, halive source hoffers⟩

/-- An event after which the process is the same. -/
theorem Owing.of_node (h : Owing m) (hcycle : Cycle m.node)
    (hspares : ∀ debt, e.spares debt = true) (hstays : e.changesPeers = false)
    (hnode : (m.react κ e).1 = m.node) : Owing (m.step κ e) := by
  refine h.of_stays hcycle ?_ hspares hstays
  rw [hnode]
  exact (SameCycle.refl m.node).noNewWait (Or.inl rfl)

/-- An event after which the state is another one, and not `submitted`. -/
theorem Owing.of_state (h : Owing m) (hcycle : Cycle m.node)
    (hspares : ∀ debt, e.spares debt = true) (hstays : e.changesPeers = false)
    (hpending : (m.react κ e).1.mining.pendingTemplateRequest
      = m.node.mining.pendingTemplateRequest)
    (hsource : (m.react κ e).1.mining.sourcePeer = m.node.mining.sourcePeer)
    (hstate : (m.react κ e).1.mining.state ≠ .submitted) : Owing (m.step κ e) := by
  refine h.of_stays hcycle ⟨?_, hsource, ?_, ?_⟩ hspares hstays
  · intro requestId hrequested
    exact hpending.symm.trans hrequested
  · exact fun hsubmitted => absurd hsubmitted hstate
  · exact fun hsubmitted => absurd hsubmitted hstate

theorem owing_start (hcycle : Cycle m.node) (halive : Alive m) (h : Owing m) (deferWork : Bool) :
    Owing (m.step κ (.start deferWork)) := by
  have hnode : (m.react κ (.start deferWork)).1 = (m.node.startMining κ deferWork false).1 := rfl
  have hsent : (m.react κ (.start deferWork)).2 = (m.node.startMining κ deferWork false).2.1 := rfl
  rcases startMining_cases κ hcycle.solitary deferWork false with ⟨error, hrefused⟩ |
    ⟨-, reward, -, source, hoffers, hstarted⟩
  · rw [hrefused] at hnode
    exact h.of_node hcycle (fun _ => rfl) rfl hnode
  · rw [hstarted] at hnode hsent
    exact owing_request hcycle halive hoffers rfl hnode hsent

theorem owing_coordinate (hcycle : Cycle m.node) (halive : Alive m) (h : Owing m) :
    Owing (m.step κ .coordinate) := by
  have hnode : (m.react κ .coordinate).1 = (m.node.coordinate κ m.lastWaitReason).1 := rfl
  have hwaiting : MiningState.waiting ≠ .submitted := by decide
  rcases coordinate_cases κ hcycle.solitary m.lastWaitReason with ⟨hsame | hnext, -⟩ |
    ⟨-, reward, -, source, hoffers, hnext, hsent⟩
  · exact h.of_node hcycle (fun _ => rfl) rfl (hnode.trans hsame)
  · rw [hnext] at hnode
    refine h.of_state hcycle (fun _ => rfl) rfl ?_ ?_ ?_ <;> rw [hnode]
    · rfl
    · rfl
    · exact hwaiting
  · exact owing_request hcycle halive hoffers rfl (hnode.trans hnext) hsent

/-- A process that has no pending request and is not `submitted` waits for nothing. -/
theorem not_waited (hpending : n.mining.pendingTemplateRequest = none)
    (hstate : n.mining.state ≠ .submitted) (debt : Debt) : ¬ debt.Waited n := by
  cases debt with
  | template debtor requestId =>
      rintro ⟨hrequested, -⟩
      rw [hpending] at hrequested
      cases hrequested
  | result debtor blockId => exact fun h => hstate h.1

theorem owing_release (hcycle : Cycle m.node) (h : Owing m) (future : Bool) :
    Owing (m.step κ (.release future)) := by
  have hnode : (m.react κ (.release future)).1 = m.node.beginMining future := rfl
  rw [NodeRuntime.beginMining] at hnode
  split at hnode
  · have hrunning : (if future then MiningState.scheduled else .running) ≠ .submitted := by
      cases future <;> decide
    refine h.of_state hcycle (fun _ => rfl) rfl ?_ ?_ ?_ <;> rw [hnode]
    · rfl
    · rfl
    · exact hrunning
  · exact h.of_node hcycle (fun _ => rfl) rfl hnode

theorem owing_continuous (hcycle : Cycle m.node) (h : Owing m) : Owing (m.step κ .continuous) := by
  have hnode : (m.react κ .continuous).1 = m.node.startContinuousMining := rfl
  rw [NodeRuntime.startContinuousMining] at hnode
  split at hnode
  · exact h.of_node hcycle (fun _ => rfl) rfl hnode
  · refine h.of_stays hcycle ?_ (fun _ => rfl) rfl
    rw [hnode]
    exact SameCycle.noNewWait ⟨rfl, rfl, rfl, rfl, rfl, rfl, rfl⟩ (Or.inl rfl)

theorem owing_stop (hcycle : Cycle m.node) (finishes : Bool) :
    Owing (m.step κ (.stop finishes)) := by
  have hnode : (m.step κ (.stop finishes)).node
      = (m.node.stopMining κ finishes fun _ => {}).1 := rfl
  rw [NodeRuntime.stopMining, if_neg (not_not.mpr hcycle.solitary.miner)] at hnode
  have hstopped : MiningState.stopped ≠ .submitted := by decide
  intro debt hwaited
  refine absurd hwaited ?_
  rw [hnode]
  cases finishes with
  | false => exact not_waited (n := m.node.resetMining.endWorker .stopped) rfl hstopped debt
  | true =>
      obtain ⟨-, hpending, -⟩ := runBatch_resetMining κ hcycle fun _ => {}
      exact not_waited (n := (m.node.resetMining.runBatch κ fun _ => {}).1.endWorker .stopped)
        hpending hstopped debt

theorem owing_cancelled (hcycle : Cycle m.node) (h : Owing m)
    (hspares : ∀ debt, e.spares debt = true) (hstays : e.changesPeers = false)
    (hnode : (m.react κ e).1 = m.node.endWorker .cancelled) : Owing (m.step κ e) := by
  have hcancelled : MiningState.cancelled ≠ .submitted := by decide
  refine h.of_state hcycle hspares hstays ?_ ?_ ?_ <;> rw [hnode]
  · rfl
  · rfl
  · exact hcancelled

theorem owing_wake (hcycle : Cycle m.node) (h : Owing m) : Owing (m.step κ .wake) := by
  have hnode : (m.react κ .wake).1 = m.node.wakeWorker := rfl
  have hrunning : MiningState.running ≠ .submitted := by decide
  rw [NodeRuntime.wakeWorker] at hnode
  split at hnode
  · exact h.of_node hcycle (fun _ => rfl) rfl hnode
  split at hnode
  · exact h.of_node hcycle (fun _ => rfl) rfl hnode
  split at hnode
  · exact owing_cancelled hcycle h (fun _ => rfl) rfl hnode
  · refine h.of_state hcycle (fun _ => rfl) rfl ?_ ?_ ?_ <;> rw [hnode]
    · rfl
    · rfl
    · exact hrunning

theorem owing_quit (hcycle : Cycle m.node) (h : Owing m) : Owing (m.step κ .quit) := by
  have hnode : (m.react κ .quit).1 = m.node.quitWorker := rfl
  rw [NodeRuntime.quitWorker] at hnode
  split at hnode
  · exact h.of_node hcycle (fun _ => rfl) rfl hnode
  split at hnode
  · exact h.of_node hcycle (fun _ => rfl) rfl hnode
  · exact owing_cancelled hcycle h (fun _ => rfl) rfl hnode

theorem owing_batch (hcycle : Cycle m.node) (h : Owing m) (hkept : Kept κ m .batch) :
    Owing (m.step κ .batch) := by
  have hnode : (m.react κ .batch).1 = (m.node.runBatch κ fun _ => {}).1 := rfl
  have hsent : (m.react κ .batch).2 = (m.node.runBatch κ fun _ => {}).2 := rfl
  have hfailed : MiningState.failed ≠ .submitted := by decide
  cases hworker : m.node.mining.worker with
  | none =>
      rw [NodeRuntime.runBatch, hworker] at hnode
      exact h.of_node hcycle (fun _ => rfl) rfl hnode
  | some thread =>
      obtain ⟨hpending, -, -, hstate, hsource⟩ := hcycle.stage.of_worker hworker
      rcases runBatch_cases κ hworker (hcycle.stage.numbered thread hworker) fun _ => {} with
        ⟨mined, hfinds, hrun⟩ | ⟨-, hrun | ⟨next, -, hrun⟩⟩
      · have hopen : m.isOpen thread.peerId = true := hkept thread hworker (by rw [hfinds]; rfl)
        rw [hrun] at hnode hsent
        rw [NodeRuntime.send, if_pos (isOpen_eq_true.mp hopen).1] at hsent
        refine owing_of_output ?_ (hsent ▸ List.mem_singleton_self _)
          (debts_blockSubmit κ thread.peerId mined)
          ((isOpen_step hcycle rfl _).trans hopen)
        intro debt hwaited
        rw [hnode] at hwaited
        cases debt with
        | template debtor requestId =>
            cases hpending.symm.trans hwaited.1
        | result debtor blockId =>
            obtain ⟨-, hfound, hdebtor⟩ := hwaited
            cases hsource.symm.trans hdebtor
            cases hfound
            rfl
      · intro debt hwaited
        refine absurd hwaited ?_
        show ¬ debt.Waited (m.react κ .batch).1
        rw [hnode, hrun]
        exact not_waited (n := m.node.endWorker .failed) hpending hfailed debt
      · intro debt hwaited
        refine absurd hwaited ?_
        show ¬ debt.Waited (m.react κ .batch).1
        rw [hnode, hrun]
        exact not_waited (n := m.node.setWorker next) hpending hstate debt

/-! The snapshot -/

/-- A handler that leaves the snapshot alone shows the same full nodes. -/
theorem Alive.of_stays (h : Alive m) (hcycle : Cycle m.node) (hstays : e.changesPeers = false) :
    Alive (m.step κ e) := by
  rintro peer ⟨hlisted, hcomplete, hfull⟩
  rw [step, NodeRuntime.peers, network_react κ hcycle hstays] at hlisted
  rw [step, endedAt_eq hstays]
  exact h peer ⟨hlisted, hcomplete, hfull⟩

theorem alive_handshake (hcycle : Cycle m.node) (h : Alive m) {peer : PeerStatus}
    {numbered : peer.id ≠ 0} (hkept : Kept κ m (.handshake peer numbered)) :
    Alive (m.step κ (.handshake peer numbered)) := by
  rintro other ⟨hlisted, hcomplete, hfull⟩
  rcases (NodeRuntime.mem_peers_greeted hcycle.solitary.network).mp hlisted with rfl | ⟨hold, -⟩
  · exact hkept hfull
  · exact h other ⟨hold, hcomplete, hfull⟩

theorem alive_disconnect (hcycle : Cycle m.node) (h : Alive m) (peerId : UInt64) :
    Alive (m.step κ (.disconnect peerId)) := by
  rintro other ⟨hlisted, hcomplete, hfull⟩
  obtain ⟨hold, hne⟩ := (NodeRuntime.mem_peers_parted hcycle.solitary.network).mp hlisted
  have hnew := h other ⟨hold, hcomplete, hfull⟩
  show other.id ∉ peerId :: m.ended
  simpa [hne] using hnew

/-- The invariant of a run that keeps the conditions. -/
structure Attentive (m : Miner) : Prop where
  cycle : Cycle m.node
  alive : Alive m
  owing : Owing m

theorem alive_step (hcycle : Cycle m.node) (h : Alive m) (hkept : Kept κ m e) :
    Alive (m.step κ e) := by
  cases e with
  | handshake peer numbered => exact alive_handshake hcycle h hkept
  | disconnect peerId => exact alive_disconnect hcycle h peerId
  | template | block | result | start | release | continuous | stop | coordinate | wake | batch
  | quit => exact h.of_stays hcycle rfl

theorem attentive_step (m : Miner) (e : MiningEvent) (hkept : Kept κ m e) (h : Attentive m) :
    Attentive (m.step κ e) := by
  obtain ⟨hcycle, halive, howing⟩ := h
  refine ⟨cycle_step m e hcycle, alive_step hcycle halive hkept, ?_⟩
  cases e with
  | handshake peer numbered => exact owing_handshake hcycle howing peer numbered
  | disconnect peerId => exact owing_disconnect hcycle howing hkept
  | template peerId payload => exact owing_template hcycle howing hkept
  | block peerId payload submission => exact owing_block hcycle howing peerId payload submission
  | result peerId payload => exact owing_result hcycle howing hkept
  | start deferWork => exact owing_start hcycle halive howing deferWork
  | release future => exact owing_release hcycle howing future
  | continuous => exact owing_continuous hcycle howing
  | stop finishes => exact owing_stop hcycle finishes
  | coordinate => exact owing_coordinate hcycle halive howing
  | wake => exact owing_wake hcycle howing
  | batch => exact owing_batch hcycle howing hkept
  | quit => exact owing_quit hcycle howing

/-! ## No wedge -/

/-- A pending cycle has its thread, its candidate, or a reply that an open session
owes. -/
def Attended (m : Miner) : Prop :=
  m.node.miningCyclePending = true →
    m.node.mining.worker.isSome = true ∨ m.node.mining.preparedCandidate.isSome = true ∨
      (∃ peerId requestId, m.node.mining.pendingTemplateRequest = some requestId ∧
        .template peerId requestId ∈ m.owed ∧ m.isOpen peerId = true) ∨
      (∃ peerId blockId, m.node.mining.state = .submitted ∧
        m.node.mining.foundBlockId = some blockId ∧ .result peerId blockId ∈ m.owed ∧
        m.isOpen peerId = true)

/-- Continuous mining goes on at the coordinator's next turn when a full node is
connected: a request goes to an open session. -/
def Resumes (κ : Crypto) (m : Miner) : Prop :=
  m.node.mining.continuous = true → m.node.miningCyclePending = false →
    ∀ peer, Offers m.node peer → ∃ peerId payload,
      Output.send peerId .templateRequest payload ∈ (m.react κ .coordinate).2 ∧
        m.isOpen peerId = true

theorem Attentive.attended (h : Attentive m) : m.Attended := by
  intro hpending
  cases h.cycle.stage with
  | idle pending prepared active worker state =>
      rw [NodeRuntime.miningCyclePending] at hpending
      simp [pending, prepared, active, state] at hpending
  | requested peerId requestId pending _ _ _ _ source _ =>
      obtain ⟨hdebt, hopen⟩ := h.owing (.template peerId requestId) ⟨pending, source⟩
      exact Or.inr (Or.inr (Or.inl ⟨peerId, requestId, pending, hdebt, hopen⟩))
  | prepared _ _ _ prepared => exact Or.inr (Or.inl (by rw [prepared]; rfl))
  | working _ _ _ _ worker => exact Or.inl (by rw [worker]; rfl)
  | submitted peerId blockId _ _ _ _ state found source =>
      obtain ⟨hdebt, hopen⟩ := h.owing (.result peerId blockId) ⟨state, found, source⟩
      exact Or.inr (Or.inr (Or.inr ⟨peerId, blockId, state, found, hdebt, hopen⟩))

/-- With a full node connected `start_mining` sends its request. -/
theorem outputs_startMining (κ : Crypto) (h : Solitary n) (hcontinuous : n.mining.continuous = true)
    (hfree : n.miningCyclePending = false) {peer : PeerStatus} (hpeer : Offers n peer) :
    ∃ source payload, Offers n source ∧
      Output.send source.id .templateRequest payload ∈ (n.startMining κ false true).2.1 := by
  obtain ⟨reward, hreward⟩ := Option.isSome_iff_exists.mp h.reward
  simp only [NodeRuntime.miningCyclePending, Bool.or_eq_false_iff, decide_eq_false_iff_not]
    at hfree
  obtain ⟨⟨⟨hactive, hpending⟩, hprepared⟩, hstate⟩ := hfree
  have hnetwork : n.network.isNone = false := by simpa using h.network
  rw [NodeRuntime.startMining, hreward]
  dsimp only
  rw [if_neg (by simp [h.miner, hnetwork]), if_neg (by simp [hcontinuous]), if_neg (by simp),
    if_neg (by simp [hactive]), if_neg (by simp [hpending, hprepared, hstate]), h.chain]
  dsimp only
  rcases requestTemplate_cases n reward false with ⟨-, hnone⟩ | ⟨source, hoffers, hsent⟩
  · have hmatch := List.find?_eq_none.mp hnone peer hpeer.listed
    simp [hpeer.complete, hpeer.full] at hmatch
  · rw [hsent]
    exact ⟨source, _, hoffers, List.mem_singleton_self _⟩

theorem outputs_coordinate (κ : Crypto) (hcontinuous : n.mining.continuous = true)
    (hfree : n.miningCyclePending = false) (reason : Option StartMiningError) :
    (n.coordinate κ reason).2.1 = (n.startMining κ false true).2.1 := by
  have hturn : ¬ (¬ n.mining.continuous = true ∨ n.miningCyclePending = true) := by
    simp [hcontinuous, hfree]
  rw [NodeRuntime.coordinate, if_neg hturn]
  dsimp only
  cases (n.startMining κ false true).2.2 with
  | none => rfl
  | some error =>
      dsimp only
      split
      · rfl
      · rfl

theorem Attentive.resumes (h : Attentive m) : m.Resumes κ := by
  intro hcontinuous hfree peer hpeer
  obtain ⟨source, payload, hoffers, hsent⟩ :=
    outputs_startMining κ h.cycle.solitary hcontinuous hfree hpeer
  refine ⟨source.id, payload, ?_, isOpen_eq_true.mpr ⟨hoffers.reaches, h.alive source hoffers⟩⟩
  show _ ∈ (m.node.coordinate κ m.lastWaitReason).2.1
  rw [outputs_coordinate κ hcontinuous hfree]
  exact hsent

/-- In every run of a mining-only process that keeps the conditions, a pending cycle is
attended to and continuous mining resumes with a connected full node. -/
theorem never_wedges (κ : Crypto) (config : RuntimeConfig) (hminer : config.hasRole .miner = true)
    (honly : config.hasRole .fullNode = false) (directory : NodeRuntime.DataDirectory)
    (io : NodeRuntime.StartIo) (start : NodeRuntime)
    (hstart : NodeRuntime.initializeNode κ config directory io = some start)
    (events : List MiningEvent)
    (hkept : Along (step κ) (Kept κ) (launch (start.startNetwork κ)) events) :
    let m := Runs.run (step κ) (launch (start.startNetwork κ)) events
    m.Attended ∧ m.Resumes κ := by
  intro m
  obtain ⟨hcycle, -, hmining⟩ := cycle_startNetwork hminer honly hstart
  have hinit : Attentive (launch (start.startNetwork κ)) := by
    refine ⟨hcycle, fun _ _ => List.not_mem_nil, ?_⟩
    intro debt hwaited
    have hidle : (start.startNetwork κ).mining.state ≠ .submitted := by
      rw [hmining]
      exact fun hsubmitted => MiningState.noConfusion hsubmitted
    exact absurd hwaited (not_waited (n := start.startNetwork κ) (by rw [hmining]) hidle debt)
  have hattentive : Attentive m := hkept.invariant attentive_step hinit
  exact ⟨hattentive.attended, hattentive.resumes⟩

/-- Continuous mining asks the first full node for a template. -/
def requestEvents : List MiningEvent :=
  [.handshake (fullNodePeer 1) numbered_fullNodePeer, .continuous, .coordinate]

/-- The full node leaves before it answers. -/
def deserted : Miner :=
  Runs.run (step reference)
    (launch (NodeRuntime.startNetwork reference { config := regtestMiner }))
    (requestEvents ++ [.disconnect 1])

/-- With the next full node nothing is sent. -/
theorem wedge :
    ∃ start, NodeRuntime.initializeNode reference regtestMiner {} {} = some start ∧
      Runs.run (step reference) (launch (start.startNetwork reference))
        (requestEvents ++ [.disconnect 1]) = deserted ∧
      deserted.node.miningCyclePending = true ∧ ¬ deserted.Attended ∧
      ((deserted.step reference (.handshake (fullNodePeer 2) (by decide))).react reference
        .coordinate).2 = [] := by
  have hpending : deserted.node.miningCyclePending = true := by decide +kernel
  have hworker : deserted.node.mining.worker.isSome = false := by decide +kernel
  have hprepared : deserted.node.mining.preparedCandidate.isSome = false := by decide +kernel
  have howed : deserted.owed = [] := by decide +kernel
  refine ⟨_, initializeNode_regtestMiner, rfl, hpending, ?_, by decide +kernel⟩
  intro hattended
  rcases hattended hpending with h | h | ⟨_, _, -, hdebt, -⟩ | ⟨_, _, -, -, hdebt, -⟩
  · rw [hworker] at h
    cases h
  · rw [hprepared] at h
    cases h
  · rw [howed] at hdebt
    cases hdebt
  · rw [howed] at hdebt
    cases hdebt

/-- Full node 2 is greeted before full node 1, and full node 1 is asked: the snapshot is
sorted by the id of the session.  Full node 2 then leaves and mining goes on. -/
def sortedEvents : List MiningEvent :=
  [.handshake (fullNodePeer 2) numbered_secondPeer,
    .handshake (fullNodePeer 1) numbered_fullNodePeer, .continuous, .coordinate, .disconnect 2]

/-- While the full node that was asked stays, the conditions are kept. -/
theorem never_wedges_regtest :
    ∃ start, NodeRuntime.initializeNode reference regtestMiner {} {} = some start ∧
      let m := Runs.run (step reference) (launch (start.startNetwork reference)) sortedEvents
      m.Attended ∧ m.Resumes reference := by
  have hsource : ((launch (NodeRuntime.startNetwork reference { config := regtestMiner })).step
      reference (.handshake (fullNodePeer 2) numbered_secondPeer) |>.step
      reference (.handshake (fullNodePeer 1) numbered_fullNodePeer) |>.step
      reference .continuous |>.step reference .coordinate).node.mining.sourcePeer = some 1 := by
    decide +kernel
  have hleaves : ∀ h : some (1 : UInt64) = some 2, False := by decide
  exact ⟨_, initializeNode_regtestMiner,
    never_wedges reference regtestMiner (by decide) (by decide) {} {} _ initializeNode_regtestMiner
      sortedEvents ⟨fun _ => List.not_mem_nil, fun _ => List.not_mem_nil, trivial, trivial,
        fun h => hleaves (hsource.symm.trans h.2), trivial⟩⟩

end Miner

end BBC
