/-
# `BBC.Node.RelayNetwork` — flooding ends in every graph

Nodes with sessions between them.  A session is a pair of ids, one at each end, and what
a node hands to its peer network goes over its sessions: a `send` over one of them, a
`broadcast` over all but the excluded one.  Messages in flight arrive in any order; each
arrival starts a handler, and the handlers of a node run section by section, in any
interleaving with the node's own work.

Each node relays an item at most once (`BBC.Node.Flooding`), so the network carries at
most one copy for each session of each node, whatever the graph.  For a transaction this is
so in a period in which no active chain changes, unless a handler that has admitted it
earlier is still to broadcast it (`relayed_twice`).
-/
import BBC.Mempool.Selection
import BBC.Node.Relaying

namespace BBC

open Sections (Program Move System)

/-- The sessions of each node: the id there, the node at the other end, and the id there. -/
abbrev Links (ν : Type) := ν → List (UInt64 × ν × UInt64)

/-- A message in flight. -/
structure Envelope (ν : Type) where
  target : ν
  session : UInt64
  message : Message

variable {ν : Type}

/-- What the receiver does with a message; the other types concern mining workers. -/
def Envelope.call (e : Envelope ν) : Option NodeRuntime.Call :=
  match e.message.1 with
  | .block => some (.block e.session e.message.2)
  | .blockSubmit => some (.blockSubmit e.session e.message.2)
  | .blocks => some (.blocks e.session e.message.2)
  | .getBlocks => some (.getBlocks e.session e.message.2)
  | .transaction => some (.transaction e.session e.message.2)
  | .transactionSubmit => some (.transactionSubmit e.session e.message.2)
  | _ => none

/-- An output, put on the sessions of its node. -/
def Output.route (links : List (UInt64 × ν × UInt64)) : Output → List (Envelope ν)
  | .send peerId type payload =>
      (links.filter fun l => l.1 = peerId).map fun l => ⟨l.2.1, l.2.2, (type, payload)⟩
  | .broadcast type payload excluded =>
      (links.filter fun l => some l.1 ≠ excluded).map fun l => ⟨l.2.1, l.2.2, (type, payload)⟩

/-- The nodes, the messages in flight, and what each node has put out. -/
structure Net (ν : Type) where
  node : ν → System NodeRuntime StorageIo Output
  flight : List (Envelope ν) := []
  outputs : ν → List Output := fun _ => []

/-- What happens next. -/
inductive NetEvent (ν : Type) where
  /-- A node starts a handler of its own accord, or for a peer outside. -/
  | call (v : ν) (handler : NodeRuntime.Call)
  /-- A message in flight arrives. -/
  | deliver (k : Nat)
  /-- A handler of a node runs its next section. -/
  | advance (v : ν) (k : Nat) (io : StorageIo)

/-- The move that an event makes, and where. -/
def NetEvent.move (net : Net ν) : NetEvent ν → Option (ν × Move NodeRuntime.Call StorageIo)
  | .call v handler => some (v, .start handler)
  | .deliver k =>
      net.flight[k]?.bind fun e => e.call.map fun handler => (e.target, .start handler)
  | .advance v k io => some (v, .advance k io)

/-- The messages that are still in flight. -/
def NetEvent.left (net : Net ν) : NetEvent ν → List (Envelope ν)
  | .deliver k => net.flight.eraseIdx k
  | _ => net.flight

namespace Net

variable [DecidableEq ν] (κ : Crypto) (links : Links ν)

/-- One event. -/
def step (net : Net ν) (e : NetEvent ν) : Net ν :=
  match e.move net with
  | none => { net with flight := e.left net }
  | some (v, move) =>
      let outs := (net.node v).emitted move
      { node := Function.update net.node v ((net.node v).move (NodeRuntime.Call.task κ) move)
        flight := e.left net ++ outs.flatMap (Output.route (links v))
        outputs := Function.update net.outputs v (net.outputs v ++ outs) }

/-- A run of events. -/
def run (net : Net ν) (events : List (NetEvent ν)) : Net ν := events.foldl (step κ links) net

/-- The network before its first event. -/
def init (start : ν → NodeRuntime) : Net ν where
  node v := ⟨start v, []⟩

/-- The same network, counting anew. -/
def mark (net : Net ν) : Net ν := { net with outputs := fun _ => [] }

/-- Every event of the run changes the nodes as `ok` says. -/
def Along (ok : NodeRuntime → NodeRuntime → Prop) : Net ν → List (NetEvent ν) → Prop
  | _, [] => True
  | net, e :: events =>
      (∀ v, ok (net.node v).state ((net.step κ links e).node v).state) ∧
        Along ok (net.step κ links e) events

/-- No event of the run changes the active chain of a node. -/
def Steady : Net ν → List (NetEvent ν) → Prop :=
  Along κ links fun n m => m.activeChain = n.activeChain

/-- No handler of the node is still to broadcast the transaction, or one is, and the
transaction is still pending. -/
def Clear (κ : Crypto) (id : Hash256) (m : System NodeRuntime StorageIo Output) : Prop :=
  (∀ p ∈ m.threads, ¬ NodeRuntime.Relaying κ id p) ∨
    m.state.holdsTransaction κ id = true ∧ ∃ before p after, m.threads = before ++ p :: after ∧
      ∀ q ∈ before ++ after, ¬ NodeRuntime.Relaying κ id q

/-- The messages about an item that a node has put on its sessions. -/
def copies (item : Message → Bool) (net : Net ν) (v : ν) : Nat :=
  ((net.outputs v).flatMap (Output.route (links v))).countP fun e => item e.message

end Net

/-! ## Copies and relays -/

theorem Output.length_route_le (links : List (UInt64 × ν × UInt64)) (o : Output) :
    (o.route links).length ≤ links.length := by
  cases o <;> (rw [Output.route, List.length_map]; exact List.length_filter_le _ _)

theorem Output.message_of_mem_route {links : List (UInt64 × ν × UInt64)} {o : Output}
    {e : Envelope ν} (h : e ∈ o.route links) : e.message = o.message := by
  cases o with
  | send peerId type payload =>
      obtain ⟨l, -, rfl⟩ := List.mem_map.mp h
      rfl
  | broadcast type payload excluded =>
      obtain ⟨l, -, rfl⟩ := List.mem_map.mp h
      rfl

/-- A relay makes at most one copy for each session. -/
theorem copies_le (item : Message → Bool) (links : List (UInt64 × ν × UInt64)) (os : List Output) :
    (os.flatMap (Output.route links)).countP (fun e => item e.message)
      ≤ NodeRuntime.relays item os * links.length := by
  induction os with
  | nil => exact Nat.zero_le _
  | cons o os ih =>
      rw [List.flatMap_cons, List.countP_append, NodeRuntime.relays, List.countP_cons]
      by_cases hitem : item o.message = true
      · have hone : (o.route links).countP (fun e => item e.message) ≤ links.length :=
          Nat.le_trans List.countP_le_length (o.length_route_le links)
        rw [if_pos hitem, Nat.succ_mul]
        exact Nat.le_trans (Nat.add_le_add hone ih) (Nat.le_of_eq (Nat.add_comm _ _))
      · have hnone : (o.route links).countP (fun e => item e.message) = 0 := by
          refine List.countP_eq_zero.mpr fun e he => ?_
          rw [Output.message_of_mem_route he]
          exact hitem
        rw [if_neg hitem, hnone, Nat.zero_add]
        exact ih

namespace Net

variable [DecidableEq ν] {κ : Crypto} {links : Links ν}

/-! ## The account of every node -/

section account
variable {I : NodeRuntime → Prop} {ok : NodeRuntime → NodeRuntime → Prop}
  {flag : NodeRuntime → Bool} {item : Message → Bool}

/-- What a node has relayed and may still relay is covered by its flag. -/
structure Balanced (I : NodeRuntime → Prop) (ok : NodeRuntime → NodeRuntime → Prop)
    (flag : NodeRuntime → Bool) (item : Message → Bool)
    (m : System NodeRuntime StorageIo Output) (os : List Output) : Prop where
  state : I m.state
  keeps : ∀ p ∈ m.threads, p.Keeps (fun _ => True) I
  paid : ∃ held, Program.Budget I ok flag (fun o => item o.message) m.threads held ∧
    NodeRuntime.relays item os + held ≤ (flag m.state).toNat

/-- One event keeps the accounts of all nodes. -/
theorem balanced_step (hearned : NodeRuntime.Earned κ I ok flag item)
    (hkeeps : ∀ call : NodeRuntime.Call, (call.task κ).Keeps (fun _ => True) I) {net : Net ν}
    {e : NetEvent ν} (h : ∀ v, Balanced I ok flag item (net.node v) (net.outputs v))
    (hok : ∀ v, ok (net.node v).state ((net.step κ links e).node v).state) (v : ν) :
    Balanced I ok flag item ((net.step κ links e).node v) ((net.step κ links e).outputs v) := by
  rw [step] at hok ⊢
  cases hmove : e.move net with
  | none => exact h v
  | some target =>
      obtain ⟨w, move⟩ := target
      rw [hmove] at hok
      dsimp only at hok ⊢
      by_cases hv : v = w
      · subst hv
        have hokv := hok v
        rw [Function.update_self] at hokv
        rw [Function.update_self, Function.update_self]
        obtain ⟨hstate, hthreads, held, hbudget, hpaid⟩ := h v
        obtain ⟨left, hcount, hleft⟩ := System.spends_move (fun call => hearned.affords_call call)
          hstate hbudget (e := move) hokv
        obtain ⟨hnext, hrest⟩ := System.keeps_move hkeeps hstate hthreads (e := move)
          fun _ _ _ => trivial
        refine ⟨hnext, hrest, left, hleft, ?_⟩
        rw [NodeRuntime.relays, List.countP_append]
        rw [NodeRuntime.relays] at hpaid
        omega
      · rw [Function.update_of_ne hv, Function.update_of_ne hv]
        exact h v

/-- At the beginning. -/
theorem balanced_init {n : NodeRuntime} (hstate : I n) : Balanced I ok flag item ⟨n, []⟩ [] where
  state := hstate
  keeps _ hp := absurd hp List.not_mem_nil
  paid := ⟨0, trivial, Nat.zero_le _⟩

/-- A balanced account has relayed at most once. -/
theorem Balanced.relays_le {m : System NodeRuntime StorageIo Output} {os : List Output}
    (h : Balanced I ok flag item m os) : NodeRuntime.relays item os ≤ 1 := by
  obtain ⟨held, -, hpaid⟩ := h.paid
  have := Bool.toNat_le (flag m.state)
  omega

theorem balanced_run (hearned : NodeRuntime.Earned κ I ok flag item)
    (hkeeps : ∀ call : NodeRuntime.Call, (call.task κ).Keeps (fun _ => True) I)
    (events : List (NetEvent ν)) :
    ∀ {net : Net ν}, (∀ v, Balanced I ok flag item (net.node v) (net.outputs v)) →
      Along κ links ok net events →
      ∀ v, Balanced I ok flag item ((net.run κ links events).node v)
        ((net.run κ links events).outputs v) := by
  induction events with
  | nil => intro net h _; exact h
  | cons e events ih =>
      intro net h hok
      exact ih (balanced_step hearned hkeeps h hok.1) hok.2

omit [DecidableEq ν] in
theorem sum_copies_le [Fintype ν] {net : Net ν}
    (h : ∀ v, NodeRuntime.relays item (net.outputs v) ≤ 1) :
    ∑ v, net.copies links item v ≤ ∑ v, (links v).length := by
  refine Finset.sum_le_sum fun v _ => ?_
  refine Nat.le_trans (copies_le item (links v) (net.outputs v)) ?_
  exact Nat.le_trans (Nat.mul_le_mul_right _ (h v)) (Nat.le_of_eq (Nat.one_mul _))

end account

/-- Anything goes. -/
theorem along_true (events : List (NetEvent ν)) :
    ∀ net : Net ν, Along κ links (fun _ _ => True) net events := by
  induction events with
  | nil => intro net; trivial
  | cons e events ih => intro net; exact ⟨fun _ => trivial, ih _⟩

/-! ## The start of a period -/

section period
variable {id : Hash256}

/-- Every handler of the network broadcasts only what it has admitted. -/
theorem staysEarned_step {net : Net ν} (h : ∀ v, ∀ p ∈ (net.node v).threads,
    NodeRuntime.StaysEarned κ id p) (e : NetEvent ν) (v : ν) :
    ∀ p ∈ ((net.step κ links e).node v).threads, NodeRuntime.StaysEarned κ id p := by
  rw [step]
  cases e.move net with
  | none => exact h v
  | some target =>
      obtain ⟨w, move⟩ := target
      dsimp only
      by_cases hv : v = w
      · subst hv
        rw [Function.update_self]
        exact (System.throughout_move trivial (h v)
          fun call _ => NodeRuntime.staysEarned_call call).2
      · rw [Function.update_of_ne hv]
        exact h v

theorem staysEarned_run (events : List (NetEvent ν)) :
    ∀ {net : Net ν}, (∀ v, ∀ p ∈ (net.node v).threads, NodeRuntime.StaysEarned κ id p) →
      ∀ v, ∀ p ∈ ((net.run κ links events).node v).threads, NodeRuntime.StaysEarned κ id p := by
  induction events with
  | nil => exact fun h => h
  | cons e events ih => exact fun h => ih (staysEarned_step h e)

/-- Counting starts anew at a clear node. -/
theorem balanced_of_clear {m : System NodeRuntime StorageIo Output} (hstate : m.state.Grown κ)
    (hkeeps : ∀ p ∈ m.threads, p.Keeps (fun _ => True) (NodeRuntime.Grown κ))
    (hearned : ∀ p ∈ m.threads, NodeRuntime.StaysEarned κ id p) (h : Clear κ id m) :
    Balanced (NodeRuntime.Grown κ) (fun n n' => n'.activeChain = n.activeChain)
      (NodeRuntime.holdsTransaction κ id) (NodeRuntime.isTransaction κ id) m [] := by
  have hfree : ∀ p ∈ m.threads, ¬ NodeRuntime.Relaying κ id p → NodeRuntime.Owes κ id p 0 :=
    fun p hp hnot => (hearned p hp).self.resolve_right hnot
  refine ⟨hstate, hkeeps, ?_⟩
  rcases h with hnone | ⟨hpending, before, p, after, hthreads, hothers⟩
  · exact ⟨0, Program.budget_of_free fun p hp => hfree p hp (hnone p hp), Nat.zero_le _⟩
  · refine ⟨1, ?_, by rw [hpending]; exact le_refl 1⟩
    have hall : ∀ q ∈ before ++ after, NodeRuntime.Owes κ id q 0 := by
      intro q hq
      refine hfree q ?_ (hothers q hq)
      rw [hthreads]
      rcases List.mem_append.mp hq with hbefore | hafter
      · exact List.mem_append_left _ hbefore
      · exact List.mem_append_right _ (List.mem_cons_of_mem _ hafter)
    have hone : NodeRuntime.Owes κ id p 1 := by
      have hp : p ∈ m.threads := by
        rw [hthreads]
        exact List.mem_append_right _ List.mem_cons_self
      rcases (hearned p hp).self with hzero | hrelaying
      · exact hzero.mono (Nat.zero_le 1)
      · exact hrelaying.owes
    rw [hthreads]
    exact Program.budget_insert before hone hall

end period

/-- In a network of full nodes with any sessions and any order of events, each node relays
a block at most once over the whole run.  In a period in which no active chain changes, each
node relays a transaction at most once, if at the start of the period all nodes are clear of
it.  The messages about one block or one transaction are therefore at most the sum of the
degrees. -/
theorem relay_loop_free [Fintype ν] (κ : Crypto) (links : Links ν) (config : ν → RuntimeConfig)
    (hrole : ∀ v, (config v).hasRole .fullNode = true)
    (directory : ν → NodeRuntime.DataDirectory) (io : ν → NodeRuntime.StartIo)
    (start : ν → NodeRuntime)
    (hstart : ∀ v, NodeRuntime.initializeNode κ (config v) (directory v) (io v) = some (start v))
    (events : List (NetEvent ν)) :
    let net := run κ links (init fun v => (start v).startNetwork κ) events
    (∀ blockId, (∀ v, NodeRuntime.relays (NodeRuntime.isBlock κ blockId) (net.outputs v) ≤ 1) ∧
      ∑ v, net.copies links (NodeRuntime.isBlock κ blockId) v ≤ ∑ v, (links v).length) ∧
    ∀ transactionId period, (∀ v, Clear κ transactionId (net.node v)) →
      Steady κ links net.mark period →
      let after := run κ links net.mark period
      (∀ v, NodeRuntime.relays (NodeRuntime.isTransaction κ transactionId) (after.outputs v)
        ≤ 1) ∧
      ∑ v, after.copies links (NodeRuntime.isTransaction κ transactionId) v
        ≤ ∑ v, (links v).length := by
  intro net
  have hblocks : ∀ blockId v, Balanced (NodeRuntime.Grown κ) (fun _ _ => True)
      (NodeRuntime.holdsBlock blockId) (NodeRuntime.isBlock κ blockId) (net.node v)
      (net.outputs v) := by
    intro blockId
    refine balanced_run (NodeRuntime.earned_block blockId) NodeRuntime.keeps_grown events ?_
      (along_true events _)
    intro v
    exact balanced_init (NodeRuntime.grown_startNetwork (hrole v) (hstart v))
  constructor
  · intro blockId
    have hone := fun v => (hblocks blockId v).relays_le
    exact ⟨hone, sum_copies_le hone⟩
  · intro transactionId period hclear hsteady after
    have hearned : ∀ v, ∀ p ∈ (net.node v).threads,
        NodeRuntime.StaysEarned κ transactionId p :=
      staysEarned_run events fun v p hp => absurd hp List.not_mem_nil
    have hone : ∀ v, NodeRuntime.relays (NodeRuntime.isTransaction κ transactionId)
        (after.outputs v) ≤ 1 := by
      intro v
      refine (balanced_run (NodeRuntime.earned_transaction transactionId) NodeRuntime.keeps_grown
        period ?_ hsteady v).relays_le
      intro w
      obtain ⟨hstate, hkeeps, -⟩ := hblocks .zero w
      exact balanced_of_clear hstate hkeeps (hearned w) (hclear w)
    exact ⟨hone, sum_copies_le hone⟩

/-! Two nodes with one session between them, which has the id `1` at both ends. -/

def pairLinks : Links Bool := fun v => [(1, !v, 1)]

/-- A full node of the regression-test network in an empty directory. -/
def regtestNode : NodeRuntime where
  config := NodeRuntime.regtestFullNode
  chainStore := some ChainStore.genesisStore
  mempoolStore := some ⟨⟨{}, []⟩, []⟩

def regtestPair : Net Bool := init fun _ => regtestNode.startNetwork reference

/-- The first node mines a block and relays it; the second takes it and relays nothing back. -/
def minedEvents : List (NetEvent Bool) :=
  .call true (.mined minedFirst) :: List.replicate 8 (.advance true 0 {})
    ++ .deliver 0 :: List.replicate 5 (.advance false 0 {})

/-- A payment of the miner is submitted at the first node, which relays it. -/
def paidEvents : List (NetEvent Bool) :=
  minedEvents ++ .call true (.submit minerPayment) :: List.replicate 4 (.advance true 1 {})

/-- The second node takes it and relays nothing back. -/
def takenEvents : List (NetEvent Bool) := .deliver 0 :: List.replicate 3 (.advance false 1 {})

def minedNet : Net Bool := run reference pairLinks regtestPair minedEvents

def paidNet : Net Bool := run reference pairLinks regtestPair paidEvents

def takenNet : Net Bool := run reference pairLinks paidNet.mark takenEvents

instance decidableAlong {ok : NodeRuntime → NodeRuntime → Prop} [∀ n m, Decidable (ok n m)]
    (κ : Crypto) (links : Links Bool) :
    ∀ (net : Net Bool) (events : List (NetEvent Bool)), Decidable (Along κ links ok net events)
  | _, [] => isTrue trivial
  | net, e :: events =>
      have := @decidableAlong ok _ κ links (net.step κ links e) events
      have hboth := Bool.forall_bool
        (p := fun v => ok (net.node v).state ((net.step κ links e).node v).state)
      decidable_of_iff _ (and_congr_left' hboth.symm)

theorem relay_loop_free_pair :
    (minedNet.flight.length = 0 ∧
      NodeRuntime.relays (NodeRuntime.isBlock reference (minedFirst.id reference))
        (minedNet.outputs true) = 1 ∧
      ∑ v, minedNet.copies pairLinks
        (NodeRuntime.isBlock reference (minedFirst.id reference)) v ≤ 2) ∧
    takenNet.flight.length = 0 ∧
      NodeRuntime.relays (NodeRuntime.isTransaction reference (minerPayment.id reference))
        (takenNet.outputs false) = 1 ∧
      ∑ v, takenNet.copies pairLinks
        (NodeRuntime.isTransaction reference (minerPayment.id reference)) v ≤ 2 := by
  have hstart : ∀ _ : Bool, NodeRuntime.initializeNode reference NodeRuntime.regtestFullNode {} {}
      = some regtestNode := fun _ => NodeRuntime.initializeNode_regtestFullNode
  have hrole : ∀ _ : Bool, NodeRuntime.regtestFullNode.hasRole .fullNode = true :=
    fun _ => by decide
  have hmined := relay_loop_free reference pairLinks (fun _ => NodeRuntime.regtestFullNode) hrole
    (fun _ => {}) (fun _ => {}) (fun _ => regtestNode) hstart minedEvents
  -- the network has a name here, so that it is not evaluated to be compared
  have hpaid : ∀ net : Net Bool,
      net = run reference pairLinks (init fun _ => regtestNode.startNetwork reference) paidEvents →
      (∀ v, Clear reference (minerPayment.id reference) (net.node v)) →
      Steady reference pairLinks net.mark takenEvents →
      ∑ v, (run reference pairLinks net.mark takenEvents).copies pairLinks
        (NodeRuntime.isTransaction reference (minerPayment.id reference)) v ≤ 2 := by
    rintro net rfl hclear hsteady
    exact ((relay_loop_free reference pairLinks (fun _ => NodeRuntime.regtestFullNode) hrole
      (fun _ => {}) (fun _ => {}) (fun _ => regtestNode) hstart paidEvents).2
        (minerPayment.id reference) takenEvents hclear hsteady).2
  have hrun : ((paidNet.node false).threads.all Program.ended = true ∧
      (paidNet.node true).threads.all Program.ended = true) ∧
      Along reference pairLinks (fun n m => m.activeChain = n.activeChain) paidNet.mark
        takenEvents ∧
      takenNet.flight.length = 0 ∧
      NodeRuntime.relays (NodeRuntime.isTransaction reference (minerPayment.id reference))
        (takenNet.outputs false) = 1 := by
    decide +kernel
  obtain ⟨hended, hsteady, hempty, hone⟩ := hrun
  have hclear : ∀ v, Clear reference (minerPayment.id reference) (paidNet.node v) := by
    intro v
    refine Or.inl fun p hp => ?_
    have hdone : ((paidNet.node v).threads.all Program.ended) = true := by
      cases v with
      | false => exact hended.1
      | true => exact hended.2
    rw [Program.ended_iff.mp (List.all_eq_true.mp hdone p hp)]
    exact NodeRuntime.not_relaying_done
  have hmine : minedNet.flight.length = 0 ∧
      NodeRuntime.relays (NodeRuntime.isBlock reference (minedFirst.id reference))
        (minedNet.outputs true) = 1 := by
    decide +kernel
  exact ⟨⟨hmine.1, hmine.2, (hmined.1 _).2⟩, hempty, hone, hpaid paidNet rfl hclear hsteady⟩

/-- A block that pays a stranger. -/
def strangerBlock (parent : Block) (timestamp miningNonce : UInt64) : Block :=
  { regtestBlock parent timestamp miningNonce with
    rewardRecipient := some ⟨List.Vector.replicate 32 5⟩ }

/-- A heavier branch: the miner of the first block is paid again at its end only. -/
def strangerFirst : Block := strangerBlock (genesisBlock reference 2) 2 1028
def strangerSecond : Block := strangerBlock strangerFirst 3 388
def strangerThird : Block := regtestBlock strangerSecond 4 2831

/-- The payment is submitted at the second node too, and admitted.  Before it is broadcast
there, the branch arrives and takes the payment's money, and gives it back. -/
def forkedEvents : List (NetEvent Bool) :=
  paidEvents ++ .call false (.submit minerPayment) :: List.replicate 3 (.advance false 1 {})
    ++ .call false (.block 2 strangerFirst.serialize) :: List.replicate 5 (.advance false 2 {})
    ++ .call false (.block 2 strangerSecond.serialize) :: List.replicate 5 (.advance false 3 {})
    ++ .call false (.block 2 strangerThird.serialize) :: List.replicate 5 (.advance false 4 {})

/-- The payment arrives from the first node, is admitted again and broadcast; then the old
handler broadcasts it. -/
def lateEvents : List (NetEvent Bool) :=
  .deliver 0 :: List.replicate 3 (.advance false 5 {}) ++ [.advance false 1 {}]

/-- No active chain changes, and the node broadcasts the payment twice. -/
theorem relayed_twice :
    NodeRuntime.initializeNode reference NodeRuntime.regtestFullNode {} {} = some regtestNode ∧
    let net := run reference pairLinks regtestPair forkedEvents
    Steady reference pairLinks net.mark lateEvents ∧
      NodeRuntime.relays (NodeRuntime.isTransaction reference (minerPayment.id reference))
        ((run reference pairLinks net.mark lateEvents).outputs false) = 2 := by
  refine ⟨NodeRuntime.initializeNode_regtestFullNode, ?_⟩
  simp only [Steady]
  decide +kernel

end Net

end BBC
