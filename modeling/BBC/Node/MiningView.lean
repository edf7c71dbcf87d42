/-
# `BBC.Node.MiningView` — what a mining-only process knows of the tip

A process without a chain keeps the height and the id of one block.  `handle_block`
takes both from a block that extends the view.  `handle_block_result` takes the id from
the message and the height from `mining_height_`, which belongs to the candidate of the
last template: a relay may have overtaken the result, and a template that was accepted
for later may have changed the height.
-/
import BBC.Node.MiningCycle

namespace BBC

open Runs (Along)

namespace Miner

variable {κ : Crypto} {n n' : NodeRuntime} {m : Miner} {e : MiningEvent}

/-- Genesis, or a block with a proof of work. -/
def Passed (κ : Crypto) (chainId : UInt32) (b : Block) : Prop :=
  b = genesisBlock κ chainId ∨ (b.isGenesis = false ∧ validateProofOfWork κ b = .none)

/-- The view is the height and the id of one block. -/
def Consistent (κ : Crypto) (n : NodeRuntime) : Prop :=
  ∃ b, Passed κ n.config.chainId b ∧ b.height = n.mining.knownHeight ∧ b.id κ = n.mining.knownTip

/-- The id of the found block is that of the block that was found last. -/
def Solved (κ : Crypto) (n : NodeRuntime) (solved : Option Block) : Prop :=
  ∀ blockId, n.mining.foundBlockId = some blockId →
    ∃ b, solved = some b ∧ b.id κ = blockId ∧ b.isGenesis = false ∧ validateProofOfWork κ b = .none

/-- The handler leaves the view alone, and finds no block. -/
structure SameView (n n' : NodeRuntime) : Prop where
  config : n'.config = n.config
  height : n'.mining.knownHeight = n.mining.knownHeight
  tip : n'.mining.knownTip = n.mining.knownTip
  found : n'.mining.foundBlockId = n.mining.foundBlockId ∨ n'.mining.foundBlockId = none

theorem SameView.refl (n : NodeRuntime) : SameView n n := ⟨rfl, rfl, rfl, Or.inl rfl⟩

theorem SameView.consistent (h : SameView n n') (hview : Consistent κ n) : Consistent κ n' := by
  obtain ⟨b, hpassed, hheight, hid⟩ := hview
  exact ⟨b, by rw [h.config]; exact hpassed, hheight.trans h.height.symm, hid.trans h.tip.symm⟩

theorem SameView.solved (h : SameView n n') {solved : Option Block} (hsolved : Solved κ n solved) :
    Solved κ n' solved := by
  intro blockId hfound
  rcases h.found with hsame | hnone
  · exact hsolved blockId (hsame.symm.trans hfound)
  · rw [hnone] at hfound
    cases hfound

/-! ## The handlers that leave the view alone -/

theorem sameView_handleBlockTemplate (κ : Crypto) (n : NodeRuntime) (peerId : UInt64)
    (payload : Bytes) : SameView n (n.handleBlockTemplate κ peerId payload) := by
  rcases handleBlockTemplate_cases κ n peerId payload with ⟨hsame, -⟩ | ⟨candidate, -, -, -, htaken⟩
  · rw [hsame]
    exact .refl n
  · rw [htaken, NodeRuntime.takeTemplate]
    cases n.mining.deferStart with
    | true => exact ⟨rfl, rfl, rfl, Or.inl rfl⟩
    | false => exact ⟨rfl, rfl, rfl, Or.inr rfl⟩

theorem sameView_startMining (κ : Crypto) (h : Cycle n) (deferWork continuousCycle : Bool) :
    SameView n (n.startMining κ deferWork continuousCycle).1 := by
  rcases startMining_cases κ h.solitary deferWork continuousCycle with ⟨error, hrefused⟩ |
    ⟨-, reward, -, source, -, hsent⟩
  · rw [hrefused]
    exact .refl n
  · rw [hsent]
    exact ⟨rfl, rfl, rfl, Or.inl rfl⟩

theorem sameView_coordinate (κ : Crypto) (h : Cycle n) (reason : Option StartMiningError) :
    SameView n (n.coordinate κ reason).1 := by
  rcases coordinate_cases κ h.solitary reason with ⟨hsame | hnext, -⟩ |
    ⟨-, reward, -, source, -, hnext, -⟩
  · rw [hsame]
    exact .refl n
  · rw [hnext]
    exact ⟨rfl, rfl, rfl, Or.inl rfl⟩
  · rw [hnext]
    exact ⟨rfl, rfl, rfl, Or.inl rfl⟩

theorem sameView_beginMining (n : NodeRuntime) (future : Bool) :
    SameView n (n.beginMining future) := by
  rw [NodeRuntime.beginMining]
  split
  · exact ⟨rfl, rfl, rfl, Or.inr rfl⟩
  · exact .refl n

theorem sameView_startContinuousMining (n : NodeRuntime) : SameView n n.startContinuousMining := by
  rw [NodeRuntime.startContinuousMining]
  split
  · exact .refl n
  · exact ⟨rfl, rfl, rfl, Or.inl rfl⟩

theorem sameView_wakeWorker (n : NodeRuntime) : SameView n n.wakeWorker := by
  rw [NodeRuntime.wakeWorker]
  split
  · exact .refl n
  split
  · exact .refl n
  split
  · exact ⟨rfl, rfl, rfl, Or.inl rfl⟩
  · exact ⟨rfl, rfl, rfl, Or.inl rfl⟩

theorem sameView_quitWorker (n : NodeRuntime) : SameView n n.quitWorker := by
  rw [NodeRuntime.quitWorker]
  split
  · exact .refl n
  split
  · exact .refl n
  · exact ⟨rfl, rfl, rfl, Or.inl rfl⟩

/-! ## The mining thread -/

/-- A block that the thread finds has a proof of work. -/
theorem passed_of_finds {mined : Block} (h : finds κ n = some mined) :
    mined.isGenesis = false ∧ validateProofOfWork κ mined = .none := by
  rw [finds] at h
  split at h
  · cases h
  split at h
  · cases h
  rename_i worker _ _
  cases hvalue : (mineBlock κ worker.candidate miningBatch).value with
  | error e =>
      rw [hvalue] at h
      cases h
  | ok b =>
      rw [hvalue] at h
      cases h
      obtain ⟨-, -, -, hgenesis, hwork⟩ := mineBlock_ok hvalue
      exact ⟨hgenesis, hwork⟩

/-- A batch leaves the view alone; what it finds is the found block. -/
theorem view_runBatch {solved : Option Block} (hsolved : Solved κ n solved)
    (hnumbered : ∀ thread, n.mining.worker = some thread → thread.peerId ≠ 0)
    (io : Nat → StorageIo) :
    (n.runBatch κ io).1.config = n.config ∧
      (n.runBatch κ io).1.mining.knownHeight = n.mining.knownHeight ∧
      (n.runBatch κ io).1.mining.knownTip = n.mining.knownTip ∧
      Solved κ (n.runBatch κ io).1 ((finds κ n).or solved) := by
  cases hworker : n.mining.worker with
  | none =>
      have hfinds : finds κ n = none := by rw [finds, hworker]
      rw [NodeRuntime.runBatch, hworker, hfinds]
      exact ⟨rfl, rfl, rfl, hsolved⟩
  | some thread =>
      rcases runBatch_cases κ hworker (hnumbered thread hworker) io with ⟨mined, hfinds, hrun⟩ |
        ⟨hfinds, hrun | ⟨next, -, hrun⟩⟩
      · rw [hrun, hfinds]
        refine ⟨rfl, rfl, rfl, ?_⟩
        intro blockId hfound
        cases hfound
        obtain ⟨hgenesis, hwork⟩ := passed_of_finds hfinds
        exact ⟨mined, rfl, rfl, hgenesis, hwork⟩
      · rw [hrun, hfinds]
        exact ⟨rfl, rfl, rfl, hsolved⟩
      · rw [hrun, hfinds]
        exact ⟨rfl, rfl, rfl, hsolved⟩

/-! ## Every event -/

/-- An accepted result arrives while `mining_height_` is the height of the found block,
and before the view has gone beyond it. -/
def Timely (m : Miner) : MiningEvent → Prop
  | .result _ payload =>
      NodeRuntime.WellFormedResult payload → NodeRuntime.resultAccepted payload = true →
        m.node.mining.foundBlockId = some (NodeRuntime.resultBlockId payload) →
        ∀ height, m.node.mining.height = some height →
          m.solved.map Block.height = some height ∧ m.node.mining.knownHeight ≤ height
  | _ => True

/-- The invariant of a run. -/
structure Sighted (κ : Crypto) (m : Miner) : Prop where
  cycle : Cycle m.node
  view : Consistent κ m.node
  solved : Solved κ m.node m.solved

/-- The view moves to a higher block, or not at all. -/
structure Advances (κ : Crypto) (n n' : NodeRuntime) : Prop where
  view : Consistent κ n'
  height : n.mining.knownHeight ≤ n'.mining.knownHeight

theorem SameView.advances (h : SameView n n') (hview : Consistent κ n) : Advances κ n n' :=
  ⟨h.consistent hview, UInt64.le_of_eq h.height.symm⟩

theorem advances_observeBlock (hview : Consistent κ n) (block : Block) :
    Advances κ n (n.observeBlock κ block) := by
  rcases observeBlock_cases κ n block with hsame | ⟨hhigher, -, hwork, hmining, hconfig, -, -⟩
  · rw [hsame]
    exact (SameView.refl n).advances hview
  · have hgenesis : block.isGenesis = false := by
      rw [Block.isGenesis, beq_eq_false_iff_ne]
      intro hzero
      rw [hzero] at hhigher
      exact absurd hhigher (UInt64.not_lt.mpr (UInt64.zero_le))
    refine ⟨⟨block, Or.inr ⟨hgenesis, hwork⟩, ?_, ?_⟩, ?_⟩
    · rw [hmining]
    · rw [hmining]
    · rw [hmining]
      exact UInt64.le_of_lt hhigher

theorem advances_handleBlockResult (hview : Consistent κ m.node)
    (hsolved : Solved κ m.node m.solved) {peerId : UInt64} {payload : Bytes}
    (htimely : m.Timely (.result peerId payload)) :
    Advances κ m.node (m.node.handleBlockResult payload) := by
  rw [NodeRuntime.handleBlockResult]
  split
  · exact (SameView.refl m.node).advances hview
  rename_i hmatch
  simp only [not_or, not_not, ne_eq] at hmatch
  obtain ⟨hformed, hfound⟩ := hmatch
  have hsame : ∀ state, Advances κ m.node (m.node.setMiningState state) := by
    intro state
    have hsame : SameView m.node (m.node.setMiningState state) := ⟨rfl, rfl, rfl, Or.inl rfl⟩
    exact hsame.advances hview
  split
  · rename_i haccepted
    split
    · rename_i height hheight
      obtain ⟨hfoundHeight, hle⟩ := htimely hformed haccepted hfound height hheight
      obtain ⟨b, hb, hid, hgenesis, hwork⟩ := hsolved _ hfound
      rw [hb] at hfoundHeight
      cases hfoundHeight
      exact ⟨⟨b, Or.inr ⟨hgenesis, hwork⟩, rfl, hid⟩, hle⟩
    · exact hsame .accepted
  · exact hsame _

theorem found_observeBlock (κ : Crypto) (n : NodeRuntime) (block : Block) :
    (n.observeBlock κ block).mining.foundBlockId = n.mining.foundBlockId :=
  (sameCycle_observeBlock κ n block).1.found

/-- An event that finds no block and leaves the view alone. -/
theorem sighted_of_sameView (h : Sighted κ m) (hsame : SameView m.node (m.react κ e).1)
    (hfound : m.foundAt κ e = none) :
    Sighted κ (m.step κ e) ∧ Advances κ m.node (m.step κ e).node := by
  have hadvances : Advances κ m.node (m.step κ e).node := hsame.advances h.view
  refine ⟨⟨cycle_step m e h.cycle, hadvances.view, ?_⟩, hadvances⟩
  show Solved κ (m.react κ e).1 ((m.foundAt κ e).or m.solved)
  rw [hfound]
  exact hsame.solved h.solved

theorem sighted_block (h : Sighted κ m) (peerId : UInt64) (payload : Bytes) (submission : Bool) :
    Sighted κ (m.step κ (.block peerId payload submission)) ∧
      Advances κ m.node (m.step κ (.block peerId payload submission)).node := by
  have hnode : (m.step κ (.block peerId payload submission)).node
      = ((NodeRuntime.handleBlock κ peerId payload submission).run (fun _ => {}) m.node).1 := rfl
  rcases run_handleBlock_of_none (κ := κ) h.cycle.solitary.chain peerId payload submission
    (fun _ => {}) with hsame | ⟨block, -, hnext⟩
  · exact sighted_of_sameView h (by rw [react, hsame]; exact .refl m.node) rfl
  · rw [hnext] at hnode
    have hadvances : Advances κ m.node (m.step κ (.block peerId payload submission)).node := by
      rw [hnode]
      exact advances_observeBlock h.view block
    refine ⟨⟨cycle_step m _ h.cycle, hadvances.view, ?_⟩, hadvances⟩
    intro blockId hfound
    rw [hnode, found_observeBlock] at hfound
    exact h.solved blockId hfound

theorem sighted_result (h : Sighted κ m) {peerId : UInt64} {payload : Bytes}
    (htimely : m.Timely (.result peerId payload)) :
    Sighted κ (m.step κ (.result peerId payload)) ∧
      Advances κ m.node (m.step κ (.result peerId payload)).node := by
  have hadvances : Advances κ m.node (m.step κ (.result peerId payload)).node :=
    advances_handleBlockResult h.view h.solved htimely
  refine ⟨⟨cycle_step m _ h.cycle, hadvances.view, ?_⟩, hadvances⟩
  intro blockId hfound
  refine h.solved blockId ?_
  rcases handleBlockResult_cases m.node payload with ⟨hsame, -⟩ | ⟨-, hfields, -⟩
  · rw [← hsame]
    exact hfound
  · exact hfields.found.symm.trans hfound

theorem sighted_batch (h : Sighted κ m) :
    Sighted κ (m.step κ .batch) ∧ Advances κ m.node (m.step κ .batch).node := by
  obtain ⟨hconfig, hheight, htip, hsolved⟩ :=
    view_runBatch h.solved h.cycle.stage.numbered fun _ => {}
  have hview : Consistent κ (m.step κ .batch).node := by
    obtain ⟨b, hpassed, hb, hid⟩ := h.view
    refine ⟨b, ?_, hb.trans hheight.symm, hid.trans htip.symm⟩
    show Passed κ (m.node.runBatch κ fun _ => {}).1.config.chainId b
    rw [hconfig]
    exact hpassed
  exact ⟨⟨cycle_step m _ h.cycle, hview, hsolved⟩, hview, UInt64.le_of_eq hheight.symm⟩

theorem sighted_stop (h : Sighted κ m) (finishes : Bool) :
    Sighted κ (m.step κ (.stop finishes)) ∧
      Advances κ m.node (m.step κ (.stop finishes)).node := by
  have hnode : (m.step κ (.stop finishes)).node
      = (m.node.stopMining κ finishes fun _ => {}).1 := rfl
  rw [NodeRuntime.stopMining, if_neg (not_not.mpr h.cycle.solitary.miner)] at hnode
  cases finishes with
  | false =>
      refine sighted_of_sameView h ?_ rfl
      show SameView m.node (m.step κ (.stop false)).node
      rw [hnode]
      exact ⟨rfl, rfl, rfl, Or.inr rfl⟩
  | true =>
      -- the reset forgets the found block, and the last batch may find another
      have hreset : Solved κ m.node.resetMining m.solved := by
        intro blockId hfound
        cases hfound
      obtain ⟨hconfig, hheight, htip, hsolved⟩ :=
        view_runBatch hreset h.cycle.stage.numbered fun _ => {}
      have hview : Consistent κ (m.step κ (.stop true)).node := by
        obtain ⟨b, hpassed, hb, hid⟩ := h.view
        rw [hnode]
        refine ⟨b, ?_, hb.trans hheight.symm, hid.trans htip.symm⟩
        show Passed κ (m.node.resetMining.runBatch κ fun _ => {}).1.config.chainId b
        rw [hconfig]
        exact hpassed
      refine ⟨⟨cycle_step m _ h.cycle, hview, ?_⟩, hview, ?_⟩
      · rw [hnode]
        exact hsolved
      · rw [hnode]
        exact UInt64.le_of_eq hheight.symm

theorem sighted_step (m : Miner) (e : MiningEvent) (htimely : m.Timely e) (h : Sighted κ m) :
    Sighted κ (m.step κ e) ∧ Advances κ m.node (m.step κ e).node := by
  cases e with
  | handshake peer numbered => exact sighted_of_sameView h ⟨rfl, rfl, rfl, Or.inl rfl⟩ rfl
  | disconnect peerId => exact sighted_of_sameView h ⟨rfl, rfl, rfl, Or.inl rfl⟩ rfl
  | template peerId payload =>
      exact sighted_of_sameView h (sameView_handleBlockTemplate κ m.node peerId payload) rfl
  | block peerId payload submission => exact sighted_block h peerId payload submission
  | result peerId payload => exact sighted_result h htimely
  | start deferWork =>
      exact sighted_of_sameView h (sameView_startMining κ h.cycle deferWork false) rfl
  | release future => exact sighted_of_sameView h (sameView_beginMining m.node future) rfl
  | continuous => exact sighted_of_sameView h (sameView_startContinuousMining m.node) rfl
  | stop finishes => exact sighted_stop h finishes
  | coordinate =>
      exact sighted_of_sameView h (sameView_coordinate κ h.cycle m.lastWaitReason) rfl
  | wake => exact sighted_of_sameView h (sameView_wakeWorker m.node) rfl
  | batch => exact sighted_batch h
  | quit => exact sighted_of_sameView h (sameView_quitWorker m.node) rfl

/-- In every run of a mining-only process whose accepted results are timely, the view is
in every state the height and the id of one block with a proof of work, or Genesis, and
no event lowers its height. -/
theorem view_follows (κ : Crypto) (config : RuntimeConfig) (hminer : config.hasRole .miner = true)
    (honly : config.hasRole .fullNode = false) (directory : NodeRuntime.DataDirectory)
    (io : NodeRuntime.StartIo) (start : NodeRuntime)
    (hstart : NodeRuntime.initializeNode κ config directory io = some start)
    (events : List MiningEvent)
    (htimely : Along (step κ) Timely (launch (start.startNetwork κ)) events) :
    Along (step κ) (fun m e => Consistent κ m.node ∧
        m.node.mining.knownHeight ≤ (m.step κ e).node.mining.knownHeight)
      (launch (start.startNetwork κ)) events ∧
    Consistent κ (Runs.run (step κ) (launch (start.startNetwork κ)) events).node := by
  obtain ⟨hcycle, hconfig, hmining⟩ := cycle_startNetwork hminer honly hstart
  have hinit : Sighted κ (launch (start.startNetwork κ)) := by
    refine ⟨hcycle, ⟨genesisBlock κ config.chainId, ?_, ?_, ?_⟩, ?_⟩
    · rw [launch_node, hconfig]
      exact Or.inl rfl
    · rw [launch_node, hmining]
    · rw [launch_node, hmining]
    · intro blockId hfound
      rw [launch_node, hmining] at hfound
      cases hfound
  have hstep : ∀ (m : Miner) (e : MiningEvent), m.Timely e → Sighted κ m → Sighted κ (m.step κ e) :=
    fun m e ht h => (sighted_step m e ht h).1
  constructor
  · refine (htimely.and_invariant hstep hinit).imp ?_
    intro m e h
    exact ⟨h.2.view, (sighted_step m e h.1 h.2).2.height⟩
  · exact (htimely.invariant hstep hinit).view

/-! A worker of the regression-test network finds the first block; two relays overtake the
result. -/

/-- The payload of an accepted result. -/
def acceptedPayload (b : Block) : Bytes := (b.id reference).toList ++ [1, 0, 0]

/-- A template with a nonce that solves it, then the block and its child. -/
def overtakingEvents : List MiningEvent :=
  [.handshake (fullNodePeer 1) numbered_fullNodePeer,
    .handshake (fullNodePeer 2) numbered_secondPeer,
    .start false, .template 1 (encodeU64Le 1 ++ minedFirst.serialize), .batch,
    .block 2 minedFirst.serialize false,
    .block 2 minedChild.serialize false]

/-- The process after the relays. -/
def overtaken : Miner :=
  Runs.run (step reference)
    (launch (NodeRuntime.startNetwork reference { config := regtestMiner }))
    overtakingEvents

/-- The result of the first block takes the view back. -/
theorem view_falls_back :
    ∃ start, NodeRuntime.initializeNode reference regtestMiner {} {} = some start ∧
      Runs.run (step reference) (launch (start.startNetwork reference)) overtakingEvents
        = overtaken ∧
      overtaken.node.mining.knownHeight = 2 ∧
      (overtaken.step reference (.result 1 (acceptedPayload minedFirst))).node.mining.knownHeight
        = 1 :=
  ⟨_, initializeNode_regtestMiner, rfl, by decide +kernel⟩

/-- The process after it has found the block. -/
def solving : Miner :=
  Runs.run (step reference)
    (launch (NodeRuntime.startNetwork reference { config := regtestMiner }))
    (overtakingEvents.take 5)

theorem timely_solving : solving.Timely (.result 1 (acceptedPayload minedFirst)) := by
  have hfacts : solving.node.mining.height = some 1 ∧
      solving.solved.map Block.height = some 1 ∧ solving.node.mining.knownHeight ≤ 1 := by
    decide +kernel
  intro _ _ _ height hheight
  cases hfacts.1.symm.trans hheight
  exact hfacts.2

/-- A result that comes before the relays. -/
theorem view_follows_timely :
    ∃ start, NodeRuntime.initializeNode reference regtestMiner {} {} = some start ∧
      Along (step reference) (fun m e => Consistent reference m.node ∧
          m.node.mining.knownHeight ≤ (m.step reference e).node.mining.knownHeight)
        (launch (start.startNetwork reference))
        (overtakingEvents.take 5 ++ [.result 1 (acceptedPayload minedFirst)]) ∧
      Consistent reference (Runs.run (step reference)
        (launch (start.startNetwork reference))
        (overtakingEvents.take 5 ++ [.result 1 (acceptedPayload minedFirst)])).node :=
  ⟨_, initializeNode_regtestMiner,
    view_follows reference regtestMiner (by decide) (by decide) {} {} _ initializeNode_regtestMiner
      _ ⟨trivial, trivial, trivial, trivial, trivial, timely_solving, trivial⟩⟩

end Miner

end BBC
