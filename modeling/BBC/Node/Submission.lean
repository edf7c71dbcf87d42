/-
# `BBC.Node.Submission` — a transaction that a wallet submits

A process with a wallet and without a chain hands its transaction to a full node:

    wallet        TRANSACTION_SUBMIT    state `submitted`, the id and the peer kept
    full node     takes it into its pool or refuses it
    full node     TRANSACTION_RESULT    to the session of the submission
    wallet        state `accepted` or `rejected`, the peer forgotten

The nodes here are those of `BBC.Node.RelayNetwork`, with any sessions between them, and the
results are delivered too.  What their mining workers do is arbitrary.

* Who is told that a transaction is accepted has a peer that had it in its pool
  (`accepted_was_admitted`).
* While nothing is lost every submission is answered (`submissions_answered`).
* Nothing but the answer of the peer ends a submission.  If that session ends before the
  answer, the wallet waits for ever and refuses to submit anything else
  (`submission_waits`).
-/
import BBC.Lib.Runs
import BBC.Node.Mining
import BBC.Node.RelayNetwork

namespace BBC

open Sections (Program Move System)

variable {κ : Crypto}

namespace NodeRuntime

/-- `handle_transaction_result`. -/
def handleTransactionResult (n : NodeRuntime) (peerId : UInt64) (payload : Bytes) : NodeRuntime :=
  if ¬ WellFormedResult payload ∨ n.transaction.pendingId ≠ some (resultBlockId payload)
      ∨ n.transaction.pendingPeer ≠ some peerId then n
  else
    { n with
      transaction :=
        { n.transaction with
          state := if resultAccepted payload then .accepted else .rejected
          pendingPeer := none } }

/-! ## Results on the wire -/

/-- What `send_transaction_result` puts into its message. -/
theorem result_fields (id : Hash256) (accepted : Bool) (reason : UInt16) :
    let payload := id.toList ++ ((if accepted then 1 else 0) :: encodeU16Le reason)
    payload.length = 35 ∧ payload.getD 32 0 = (if accepted then 1 else 0) ∧
      resultBlockId payload = id ∧ resultReason payload = reason := by
  intro payload
  have hid : id.toList.length = 32 := id.toList_length
  have hdrop : payload.drop 32 = (if accepted then 1 else 0) :: encodeU16Le reason :=
    List.drop_left' hid
  refine ⟨?_, ?_, ?_, ?_⟩
  · simp only [payload, List.length_append, List.length_cons, length_encodeU16Le, hid]
  · simp only [payload, List.getD_append_right _ _ _ _ hid.le, hid, Nat.sub_self,
      List.getD_cons_zero]
  · exact ByteCodec.readArray_of_drop (List.drop_zero ..)
  · have hreason : payload.drop 33 = encodeU16Le reason ++ [] := by
      rw [List.append_nil]
      exact ByteCodec.drop_of_drop 33 (x := [if accepted then 1 else 0]) hdrop rfl
    exact readU16Le_of_drop hreason

theorem wellFormed_result (id : Hash256) (accepted : Bool) {reason : UInt16}
    (h : accepted = true ↔ reason = 0) :
    WellFormedResult (id.toList ++ ((if accepted then 1 else 0) :: encodeU16Le reason)) ∧
      resultBlockId (id.toList ++ ((if accepted then 1 else 0) :: encodeU16Le reason)) = id ∧
      resultAccepted (id.toList ++ ((if accepted then 1 else 0) :: encodeU16Le reason))
        = accepted := by
  obtain ⟨hlength, hflag, hid, hreason⟩ := result_fields id accepted reason
  have haccepted : resultAccepted
      (id.toList ++ ((if accepted then 1 else 0) :: encodeU16Le reason)) = accepted := by
    rw [resultAccepted, hflag]
    cases accepted <;> rfl
  refine ⟨⟨hlength, ?_, ?_⟩, hid, haccepted⟩
  · rw [hflag]
    cases accepted <;> decide
  · rw [haccepted, hreason]
    exact h

/-! ## The handlers of transactions -/

variable {n n' : NodeRuntime} {os : List Output}

/-- The ids of the transactions in the pool. -/
def pooled (κ : Crypto) (n : NodeRuntime) : Set Hash256 :=
  {id | ∃ pool, n.mempoolStore = some pool ∧ ∃ t ∈ pool.mempool.transactions, t.id κ = id}

theorem unmoved_addSection (n : NodeRuntime) (t : SignedTransaction) (io : StorageIo) :
    Unmoved n (n.addSection κ t io).1 ∧ (n.addSection κ t io).2.1 = [] := by
  rw [addSection]
  cases hchain : n.chainStore with
  | none => exact ⟨.refl n, rfl⟩
  | some chain =>
      cases hpool : n.mempoolStore with
      | none => exact ⟨.refl n, rfl⟩
      | some pool => exact ⟨⟨rfl, by rw [hchain], by rw [hpool]; rfl, rfl⟩, rfl⟩

/-- What the section has taken is in the pool. -/
theorem pooled_addSection {n : NodeRuntime} {t : SignedTransaction} {io : StorageIo}
    {added : MempoolStoreAddResult} (h : (n.addSection κ t io).2.2 = some added)
    (hvalue : added.hasValue = true) : t.id κ ∈ (n.addSection κ t io).1.pooled κ := by
  rw [addSection] at h ⊢
  cases hchain : n.chainStore with
  | none =>
      rw [hchain] at h
      cases h
  | some chain =>
      cases hpool : n.mempoolStore with
      | none =>
          rw [hchain, hpool] at h
          cases h
      | some pool =>
          rw [hchain, hpool] at h
          cases h
          rcases MempoolStore.add_cases κ pool t io.mempoolOk with ⟨-, hno⟩ | ⟨hmempool, hadd, -⟩
          · rw [hno] at hvalue
            cases hvalue
          rcases Mempool.add_cases κ pool.mempool t with ⟨-, hrefused⟩ | ⟨-, -, hgrown⟩
          · exact absurd hadd hrefused
          refine ⟨_, rfl, t, ?_, rfl⟩
          rw [hmempool, hgrown]
          exact List.mem_append_right _ (List.mem_singleton_self t)

/-- A process with both stores gets a result from the section. -/
theorem addSection_isSome {n : NodeRuntime} (hchain : n.chainStore.isSome = true)
    (hpool : n.mempoolStore.isSome = true) (t : SignedTransaction) (io : StorageIo) :
    ∃ added, (n.addSection κ t io).2.2 = some added := by
  obtain ⟨chain, hc⟩ := Option.isSome_iff_exists.mp hchain
  obtain ⟨pool, hp⟩ := Option.isSome_iff_exists.mp hpool
  rw [addSection, hc, hp]
  exact ⟨_, rfl⟩

/-- What a section says about submissions is about what it has seen. -/
def Truthful (seen : Set Hash256) (n n' : NodeRuntime) (os : List Output) : Prop :=
  (∀ o ∈ os, o.message.1 = .transactionResult → resultAccepted o.message.2 = true →
    resultBlockId o.message.2 ∈ seen) ∧
  (n'.transaction = n.transaction ∨ n'.transaction.state ≠ .accepted ∨
    ∃ id ∈ seen, n'.transaction.pendingId = some id)

theorem Truthful.mono (seen seen' : Set Hash256) (n n' : NodeRuntime) (os : List Output)
    (hsub : seen ⊆ seen') (h : Truthful seen n n' os) : Truthful seen' n n' os := by
  refine ⟨fun o ho hresult haccepted => hsub (h.1 o ho hresult haccepted), ?_⟩
  rcases h.2 with hsame | hstate | ⟨id, hid, hpending⟩
  · exact Or.inl hsame
  · exact Or.inr (Or.inl hstate)
  · exact Or.inr (Or.inr ⟨id, hsub hid, hpending⟩)

theorem Aloof.truthful {seen : Set Hash256} (h : Aloof κ n n' os) : Truthful seen n n' os :=
  ⟨fun o ho hresult => absurd hresult (h.quiet o ho).1, Or.inl h.transaction⟩

theorem truthful_nothing {seen : Set Hash256} (n : NodeRuntime) : Truthful seen n n [] :=
  ⟨fun _ ho => absurd ho List.not_mem_nil, Or.inl rfl⟩

theorem not_result_broadcast {type : MessageType} (htype : type ≠ .transactionResult)
    {payload : Bytes} {excluded : Option UInt64} :
    ∀ o ∈ n.broadcast type payload excluded, o.message.1 ≠ .transactionResult := by
  intro o ho
  rw [type_broadcast ho]
  exact htype

/-- A result that refuses. -/
theorem truthful_refusal {seen : Set Hash256} {p : Prop} [Decidable p] (n : NodeRuntime)
    (peerId : UInt64) (id : Hash256) {reason : UInt16} (hreason : reason ≠ 0) :
    Truthful seen n n (if p then n.sendTransactionResult peerId id false reason else []) := by
  refine ⟨fun o ho _ haccepted => ?_, Or.inl rfl⟩
  split at ho
  · rw [sendTransactionResult, send] at ho
    split at ho
    · have hnot : false = true ↔ reason = 0 := ⟨fun h => (by cases h), fun h => absurd h hreason⟩
      rw [List.mem_singleton.mp ho, Output.message,
        (wellFormed_result id false hnot).2.2] at haccepted
      cases haccepted
    · exact absurd ho List.not_mem_nil
  · exact absurd ho List.not_mem_nil

/-- A thread that says of submissions what it has seen. -/
abbrev Honest (κ : Crypto) (p : Task) (seen : Set Hash256) : Prop :=
  p.Vouched (pooled κ) (fun _ => True) (fun seen n n' os _ => Truthful seen n n' os) seen

theorem honest_handleTransaction (peerId : UInt64) (payload : Bytes) (submission : Bool)
    (seen : Set Hash256) : Honest κ (handleTransaction κ peerId payload submission) seen := by
  intro n _ _
  refine ⟨trivial, truthful_nothing n, ?_⟩
  dsimp only
  split
  · exact Program.vouched_done
  split
  · exact Program.vouched_last fun n _ _ => ⟨trivial, truthful_refusal n _ _ (by decide)⟩
  rename_i value hdecoded
  split
  · exact Program.vouched_last fun n _ _ => ⟨trivial, truthful_refusal n _ _ (by decide)⟩
  intro m io _
  obtain ⟨hmoved, hsilent⟩ := unmoved_addSection (κ := κ) m value io
  refine ⟨trivial, ?_, ?_⟩
  · rw [hsilent]
    exact ⟨fun o ho => absurd ho List.not_mem_nil, Or.inl hmoved.transaction⟩
  cases hadded : (m.addSection κ value io).2.2 with
  | none => exact Program.vouched_done
  | some added =>
      refine Program.vouched_last fun n _ _ => ⟨trivial, ?_⟩
      cases hvalue : added.hasValue with
      | false =>
          rw [if_pos (by simp)]
          refine truthful_refusal n _ _ ?_
          split <;> decide
      | true =>
          rw [if_neg (by simp)]
          refine ⟨fun o ho hresult _ => ?_, Or.inl rfl⟩
          rcases List.mem_append.mp ho with ho | ho
          · -- the section before this one has put the transaction into the pool
            split at ho
            · rw [sendTransactionResult, send] at ho
              split at ho
              · rw [List.mem_singleton.mp ho, Output.message,
                  (wellFormed_result (value.id κ) true ⟨fun _ => rfl, fun _ => rfl⟩).2.1]
                exact Or.inl (Or.inr (pooled_addSection hadded hvalue))
              · exact absurd ho List.not_mem_nil
            · exact absurd ho List.not_mem_nil
          · exact absurd hresult (not_result_broadcast (by decide) o ho)

theorem honest_sendSubmission (t : SignedTransaction) (peerId : UInt64) (seen : Set Hash256) :
    Honest κ (sendSubmission t peerId) seen := by
  intro n _ _
  refine ⟨trivial, ⟨fun o ho hresult => ?_, Or.inl rfl⟩, ?_⟩
  · dsimp only [send] at ho
    split at ho
    · rw [List.mem_singleton.mp ho] at hresult
      cases hresult
    · exact absurd ho List.not_mem_nil
  · dsimp only
    split
    · exact Program.vouched_done
    · refine Program.vouched_last fun m _ _ => ⟨trivial, ?_, ?_⟩
      · exact fun o ho => absurd ho List.not_mem_nil
      · exact Or.inr (Or.inl (by simp))

theorem honest_submitToFullNode (t : SignedTransaction) (fullNode : Option PeerStatus)
    (seen : Set Hash256) : Honest κ (submitToFullNode κ t fullNode) seen := by
  cases fullNode with
  | none => exact Program.vouched_done
  | some fullNode =>
      intro n _ _
      refine ⟨trivial, ?_, ?_⟩
      · dsimp only [noteSubmission]
        split
        · exact truthful_nothing n
        · exact ⟨fun o ho => absurd ho List.not_mem_nil, Or.inr (Or.inl (by simp))⟩
      · dsimp only
        split
        · exact honest_sendSubmission t _ _
        · exact Program.vouched_done

theorem honest_submitSignedTransaction (t : SignedTransaction) (seen : Set Hash256) :
    Honest κ (submitSignedTransaction κ t) seen := by
  intro n _ _
  refine ⟨trivial, truthful_nothing n, ?_⟩
  dsimp only
  split
  · exact Program.vouched_done
  intro m io _
  obtain ⟨hmoved, hsilent⟩ := unmoved_addSection (κ := κ) m t io
  refine ⟨trivial, ?_, ?_⟩
  · rw [hsilent]
    exact ⟨fun o ho => absurd ho List.not_mem_nil, Or.inl hmoved.transaction⟩
  cases hadded : (m.addSection κ t io).2.2 with
  | some added =>
      dsimp only
      split
      · exact Program.vouched_done
      rename_i hvalue
      have hseen : t.id κ ∈ (m.addSection κ t io).1.pooled κ :=
        pooled_addSection hadded (not_not.mp hvalue)
      intro l _ _
      refine ⟨trivial, ⟨fun o ho => absurd ho List.not_mem_nil, Or.inr (Or.inr ?_)⟩, ?_⟩
      · exact ⟨t.id κ, Or.inl (Or.inr hseen), rfl⟩
      refine Program.vouched_last fun n _ _ => ⟨trivial, fun o ho hresult => ?_, Or.inl rfl⟩
      exact absurd hresult (not_result_broadcast (by decide) o ho)
  | none => exact honest_submitToFullNode t _ _

theorem honest_of_aloof {p : Task} (h : p.All (Aloof κ)) (seen : Set Hash256) : Honest κ p seen :=
  h.vouched (fun _ _ _ _ _ => trivial) (fun _ _ _ _ _ haloof _ => haloof.truthful) seen

theorem honest_call (call : Call) (seen : Set Hash256) : Honest κ (call.task κ) seen := by
  cases call with
  | block peerId payload => exact honest_of_aloof (all_handleBlock peerId payload false) seen
  | blockSubmit peerId payload => exact honest_of_aloof (all_handleBlock peerId payload true) seen
  | blocks peerId payload => exact honest_of_aloof (all_handleBlocks peerId payload) seen
  | getBlocks peerId payload => exact honest_of_aloof (all_handleGetBlocks peerId payload) seen
  | transaction peerId payload => exact honest_handleTransaction peerId payload false seen
  | transactionSubmit peerId payload => exact honest_handleTransaction peerId payload true seen
  | handshake peerId => exact honest_of_aloof (all_maybeStartSync peerId) seen
  | submit t => exact honest_submitSignedTransaction t seen
  | mined block => exact honest_of_aloof (all_foundLocally block) seen
  | peers snapshot =>
      exact Program.vouched_last fun n _ _ =>
        ⟨trivial, fun o ho => absurd ho List.not_mem_nil, Or.inl rfl⟩

end NodeRuntime

/-! ## The network -/

/-- What happens next. -/
inductive SubmissionEvent (ν : Type) where
  /-- A node starts a handler of its own accord, or for a peer outside. -/
  | call (v : ν) (handler : NodeRuntime.Call)
  /-- A message in flight arrives. -/
  | deliver (k : Nat)
  /-- A handler of a node runs its next section. -/
  | advance (v : ν) (k : Nat) (io : StorageIo)
  /-- The mining worker of a node and its commands do something. -/
  | mining (v : ν) (status : MiningStatus)

/-- The nodes and the messages in flight. -/
structure Correspondence (ν : Type) where
  node : ν → System NodeRuntime StorageIo Output
  flight : List (Envelope ν) := []

namespace Correspondence

open NodeRuntime (WellFormedResult resultAccepted resultBlockId pooled Truthful)

variable {ν : Type} [DecidableEq ν] (κ : Crypto) (links : Links ν)

/-- A node changes on its own. -/
def change (net : Correspondence ν) (v : ν) (f : NodeRuntime → NodeRuntime) : Correspondence ν :=
  { net with
    node := Function.update net.node v { net.node v with state := f (net.node v).state } }

/-- A node makes a move, and what it puts out goes over its sessions. -/
def move (net : Correspondence ν) (v : ν) (e : Move NodeRuntime.Call StorageIo) :
    Correspondence ν where
  node := Function.update net.node v ((net.node v).move (NodeRuntime.Call.task κ) e)
  flight := net.flight ++ ((net.node v).emitted e).flatMap (Output.route (links v))

/-- One event.  The result of a transaction is handled in one section, when it arrives. -/
def step (net : Correspondence ν) : SubmissionEvent ν → Correspondence ν
  | .call v handler => net.move κ links v (.start handler)
  | .advance v k io => net.move κ links v (.advance k io)
  | .mining v status => net.change v fun n => { n with mining := status }
  | .deliver k =>
      match net.flight[k]? with
      | none => net
      | some e =>
          let rest := { net with flight := net.flight.eraseIdx k }
          if e.message.1 = .transactionResult then
            rest.change e.target fun n => n.handleTransactionResult e.session e.message.2
          else
            match e.call with
            | none => rest
            | some handler => rest.move κ links e.target (.start handler)

/-- The network before its first event. -/
def init (start : ν → NodeRuntime) : Correspondence ν where
  node v := ⟨start v, []⟩

section nodes
variable {κ links} (net : Correspondence ν) {v w : ν} (e : Move NodeRuntime.Call StorageIo)
  (f : NodeRuntime → NodeRuntime)

theorem node_move_self : (net.move κ links v e).node v
    = (net.node v).move (NodeRuntime.Call.task κ) e :=
  Function.update_self ..

theorem node_move_of_ne (h : w ≠ v) : (net.move κ links v e).node w = net.node w :=
  Function.update_of_ne h ..

theorem node_change_self :
    (net.change v f).node v = { net.node v with state := f (net.node v).state } :=
  Function.update_self ..

theorem node_change_of_ne (h : w ≠ v) : (net.change v f).node w = net.node w :=
  Function.update_of_ne h ..

end nodes

/-! ## What the nodes have seen -/

section heard
variable {κ} {τ : Type} {view : NodeRuntime → Set τ} {I : ν → NodeRuntime → Prop}
  {R : ν → Set τ → NodeRuntime → NodeRuntime → List Output → Task → Prop} {net : Correspondence ν}
  {seen : ν → Set τ}

/-- What has been seen when the nodes are as they are now. -/
def look (view : NodeRuntime → Set τ) (net : Correspondence ν) (seen : ν → Set τ) (v : ν) : Set τ :=
  seen v ∪ view (net.node v).state

/-- Every node is as it should be, and so are its handlers. -/
structure Heard (view : NodeRuntime → Set τ) (I : ν → NodeRuntime → Prop)
    (R : ν → Set τ → NodeRuntime → NodeRuntime → List Output → Task → Prop)
    (net : Correspondence ν) (seen : ν → Set τ) : Prop where
  state : ∀ v, I v (net.node v).state
  threads : ∀ v, ∀ p ∈ (net.node v).threads, p.Vouched view (I v) (R v) (seen v)

omit [DecidableEq ν] in
/-- A message leaves the flight. -/
theorem Heard.drop (h : net.Heard view I R seen) (k : Nat) :
    ({ net with flight := net.flight.eraseIdx k } : Correspondence ν).Heard view I R seen :=
  ⟨h.state, h.threads⟩

variable (hR : ∀ v seen seen' s s' os rest,
  seen ⊆ seen' → R v seen s s' os rest → R v seen' s s' os rest)

include hR

theorem Heard.move (h : net.Heard view I R seen) (v : ν) {e : Move NodeRuntime.Call StorageIo}
    (hcall : ∀ call, e = .start call → (call.task κ).Vouched view (I v) (R v) (seen v)) :
    (net.move κ links v e).Heard view I R ((net.move κ links v e).look view seen) ∧
      (((net.move κ links v e).node v).state = (net.node v).state ∧ (net.node v).emitted e = [] ∨
        ∃ rest ∈ ((net.move κ links v e).node v).threads,
          R v ((net.move κ links v e).look view seen v) (net.node v).state
            ((net.move κ links v e).node v).state ((net.node v).emitted e) rest) := by
  obtain ⟨hstate, hthreads, hdone⟩ := System.vouched_move (hR v) (h.state v) (h.threads v) hcall
  refine ⟨⟨fun w => ?_, fun w => ?_⟩, ?_⟩
  · by_cases hw : w = v
    · subst hw
      rw [node_move_self]
      exact hstate
    · rw [node_move_of_ne net e hw]
      exact h.state w
  · by_cases hw : w = v
    · subst hw
      rw [look, node_move_self]
      exact hthreads
    · rw [look, node_move_of_ne net e hw]
      exact fun p hp => (h.threads w p hp).mono (hR w) Set.subset_union_left
  · rw [look, node_move_self]
    exact hdone

theorem Heard.change (h : net.Heard view I R seen) (v : ν) {f : NodeRuntime → NodeRuntime}
    (hf : I v (f (net.node v).state)) :
    (net.change v f).Heard view I R ((net.change v f).look view seen) := by
  refine ⟨fun w => ?_, fun w p hp => ?_⟩
  · by_cases hw : w = v
    · subst hw
      rw [node_change_self]
      exact hf
    · rw [node_change_of_ne net f hw]
      exact h.state w
  · have hold : p ∈ (net.node w).threads := by
      by_cases hw : w = v
      · subst hw
        rw [node_change_self] at hp
        exact hp
      · rw [node_change_of_ne net f hw] at hp
        exact hp
    exact (h.threads w p hold).mono (hR w) Set.subset_union_left

end heard

/-! ## Who is told that a transaction is accepted -/

section recorded
variable {κ links} {net : Correspondence ν} {seen : ν → Set Hash256}

/-- Sessions are known at both ends. -/
def Mutual (links : Links ν) : Prop := ∀ u v p q, (q, v, p) ∈ links u → (p, u, q) ∈ links v

omit [DecidableEq ν] in
/-- A message that a node puts out goes to the other end of one of its sessions. -/
theorem mem_flatMap_route {os : List Output} {v : ν} {e : Envelope ν} (hlinks : Mutual links)
    (h : e ∈ os.flatMap (Output.route (links v))) :
    (∃ q, (e.session, v, q) ∈ links e.target) ∧ ∃ o ∈ os, e.message = o.message := by
  obtain ⟨o, ho, he⟩ := List.mem_flatMap.mp h
  refine ⟨?_, o, ho, Output.message_of_mem_route he⟩
  cases o with
  | send peerId type payload =>
      obtain ⟨l, hl, rfl⟩ := List.mem_map.mp he
      exact ⟨l.1, hlinks _ _ _ _ (List.mem_filter.mp hl).1⟩
  | broadcast type payload excluded =>
      obtain ⟨l, hl, rfl⟩ := List.mem_map.mp he
      exact ⟨l.1, hlinks _ _ _ _ (List.mem_filter.mp hl).1⟩

/-- Every result under way, and every wallet that has been told so, names a transaction that
the other end has had in its pool. -/
structure Recorded (κ : Crypto) (links : Links ν) (net : Correspondence ν)
    (seen : ν → Set Hash256) : Prop where
  heard : net.Heard (pooled κ) (fun _ _ => True)
    (fun _ seen n n' os _ => Truthful seen n n' os) seen
  flight : ∀ e ∈ net.flight, e.message.1 = .transactionResult →
    resultAccepted e.message.2 = true →
      ∃ u q, (e.session, u, q) ∈ links e.target ∧ resultBlockId e.message.2 ∈ seen u
  told : ∀ v id, (net.node v).state.transaction.state = .accepted →
    (net.node v).state.transaction.pendingId = some id →
      ∃ u, (u = v ∨ ∃ p q, (p, u, q) ∈ links v) ∧ id ∈ seen u

theorem Recorded.move (hlinks : Mutual links) (h : net.Recorded κ links seen) (v : ν)
    (e : Move NodeRuntime.Call StorageIo) :
    (net.move κ links v e).Recorded κ links
      ((net.move κ links v e).look (pooled κ) seen) := by
  obtain ⟨hheard, hdone⟩ := h.heard.move (κ := κ) links
    (fun _ seen seen' s s' os _ => Truthful.mono seen seen' s s' os) v
    (fun call _ => NodeRuntime.honest_call call (seen v))
  refine ⟨hheard, ?_, ?_⟩
  · intro env henv hresult haccepted
    rcases List.mem_append.mp henv with hold | hnew
    · obtain ⟨u, q, hlink, hid⟩ := h.flight env hold hresult haccepted
      exact ⟨u, q, hlink, Or.inl hid⟩
    · obtain ⟨⟨q, hlink⟩, o, ho, hmessage⟩ := mem_flatMap_route hlinks hnew
      rw [hmessage] at hresult haccepted ⊢
      refine ⟨v, q, hlink, ?_⟩
      rcases hdone with ⟨-, hsilent⟩ | ⟨-, -, htruthful⟩
      · rw [hsilent] at ho
        exact absurd ho List.not_mem_nil
      · exact htruthful.1 o ho hresult haccepted
  · intro w id hstate hpending
    have hbefore : (net.node w).state.transaction.state = .accepted →
        (net.node w).state.transaction.pendingId = some id →
        ∃ u, (u = w ∨ ∃ p q, (p, u, q) ∈ links w) ∧
          id ∈ (net.move κ links v e).look (pooled κ) seen u := by
      intro hold hid
      obtain ⟨u, hu, hseen⟩ := h.told w id hold hid
      exact ⟨u, hu, Or.inl hseen⟩
    by_cases hw : w = v
    · subst hw
      rcases hdone with ⟨hsame, -⟩ | ⟨-, -, htruthful⟩
      · rw [hsame] at hstate hpending
        exact hbefore hstate hpending
      rcases htruthful.2 with hsame | hnot | ⟨id', hid', hpending'⟩
      · rw [hsame] at hstate hpending
        exact hbefore hstate hpending
      · exact absurd hstate hnot
      · rw [hpending] at hpending'
        cases hpending'
        exact ⟨w, Or.inl rfl, hid'⟩
    · rw [node_move_of_ne net e hw] at hstate hpending
      exact hbefore hstate hpending

/-- A node changes on its own; what it then says of its submission has to be true. -/
theorem Recorded.change (h : net.Recorded κ links seen) (v : ν) {f : NodeRuntime → NodeRuntime}
    (hf : ∀ id, (f (net.node v).state).transaction.state = .accepted →
      (f (net.node v).state).transaction.pendingId = some id →
        ∃ u, (u = v ∨ ∃ p q, (p, u, q) ∈ links v) ∧ id ∈ seen u) :
    (net.change v f).Recorded κ links ((net.change v f).look (pooled κ) seen) := by
  refine ⟨h.heard.change
    (fun _ seen seen' s s' os _ => Truthful.mono seen seen' s s' os) v trivial, ?_, ?_⟩
  · intro env henv hresult haccepted
    obtain ⟨u, q, hlink, hid⟩ := h.flight env henv hresult haccepted
    exact ⟨u, q, hlink, Or.inl hid⟩
  · intro w id hstate hpending
    by_cases hw : w = v
    · subst hw
      rw [node_change_self] at hstate hpending
      obtain ⟨u, hu, hseen⟩ := hf id hstate hpending
      exact ⟨u, hu, Or.inl hseen⟩
    · rw [node_change_of_ne net f hw] at hstate hpending
      obtain ⟨u, hu, hseen⟩ := h.told w id hstate hpending
      exact ⟨u, hu, Or.inl hseen⟩

omit [DecidableEq ν] in
/-- A message leaves the flight. -/
theorem Recorded.drop (h : net.Recorded κ links seen) (k : Nat) :
    ({ net with flight := net.flight.eraseIdx k } : Correspondence ν).Recorded κ links seen where
  heard := h.heard.drop k
  flight e he := h.flight e (List.mem_of_mem_eraseIdx he)
  told := h.told

omit [DecidableEq ν] in
theorem Recorded.look_self (h : net.Recorded κ links seen) :
    net.Recorded κ links (net.look (pooled κ) seen) := by
  refine ⟨⟨h.heard.state, fun v p hp => ?_⟩, ?_, ?_⟩
  · exact (h.heard.threads v p hp).mono
      (fun seen seen' s s' os _ => Truthful.mono seen seen' s s' os) Set.subset_union_left
  · intro e he hresult haccepted
    obtain ⟨u, q, hlink, hid⟩ := h.flight e he hresult haccepted
    exact ⟨u, q, hlink, Or.inl hid⟩
  · intro v id hstate hpending
    obtain ⟨u, hu, hseen⟩ := h.told v id hstate hpending
    exact ⟨u, hu, Or.inl hseen⟩

theorem Recorded.step (hlinks : Mutual links) (h : net.Recorded κ links seen)
    (e : SubmissionEvent ν) :
    (net.step κ links e).Recorded κ links
      ((net.step κ links e).look (pooled κ) seen) := by
  cases e with
  | call v handler => exact h.move hlinks v _
  | advance v k io => exact h.move hlinks v _
  | mining v status => exact h.change v (f := fun n => { n with mining := status }) (h.told v)
  | deliver k =>
      rw [Correspondence.step]
      cases hk : net.flight[k]? with
      | none => exact h.look_self
      | some env =>
          have hmem : env ∈ net.flight := List.mem_of_getElem? hk
          dsimp only
          split
          · rename_i hresult
            refine (h.drop k).change env.target fun id hstate hpending => ?_
            dsimp only at hstate hpending
            rw [NodeRuntime.handleTransactionResult] at hstate hpending
            split at hstate
            · rename_i hignored
              rw [if_pos hignored] at hpending
              exact h.told env.target id hstate hpending
            · rename_i htaken
              rw [if_neg htaken] at hpending
              have haccepted : resultAccepted env.message.2 = true := by
                by_contra hno
                rw [if_neg hno] at hstate
                cases hstate
              have hpendingId : (net.node env.target).state.transaction.pendingId
                  = some (resultBlockId env.message.2) :=
                not_not.mp fun hne => htaken (Or.inr (Or.inl hne))
              obtain ⟨u, q, hlink, hid⟩ := h.flight env hmem hresult haccepted
              rw [hpendingId] at hpending
              cases hpending
              exact ⟨u, Or.inr ⟨_, _, hlink⟩, hid⟩
          · split
            · exact (h.drop k).look_self
            · exact (h.drop k).move hlinks env.target _

/-- A run: what is new has been in the pool at some moment of it. -/
theorem Recorded.run (hlinks : Mutual links) (events : List (SubmissionEvent ν)) :
    ∀ {net : Correspondence ν} {seen : ν → Set Hash256}, net.Recorded κ links seen →
      ∃ seen', (Runs.run (Correspondence.step κ links) net events).Recorded κ links seen' ∧
        ∀ v, ∀ id ∈ seen' v, id ∈ seen v ∨ ∃ early, early <+: events ∧
          id ∈ ((Runs.run (Correspondence.step κ links) net early).node v).state.pooled κ := by
  induction events with
  | nil => exact fun h => ⟨_, h, fun v id hid => Or.inl hid⟩
  | cons e events ih =>
      intro net seen h
      obtain ⟨seen', hrun, hseen'⟩ := ih (h.step hlinks e)
      refine ⟨seen', hrun, fun v id hid => ?_⟩
      rcases hseen' v id hid with (hbefore | hnow) | ⟨early, hearly, hpooled⟩
      · exact Or.inl hbefore
      · exact Or.inr ⟨[e], List.prefix_append _ _, hnow⟩
      · exact Or.inr ⟨e :: early, List.cons_prefix_cons.mpr ⟨rfl, hearly⟩, hpooled⟩

end recorded

/-- In every graph of sessions and every run: a process that says its transaction is accepted
is a node, or has a session with a node, in whose pool a transaction of this id has been. -/
theorem accepted_was_admitted (κ : Crypto) (links : Links ν) (hlinks : Mutual links)
    (start : ν → NodeRuntime) (hstart : ∀ v, (start v).transaction.state ≠ .accepted)
    (events : List (SubmissionEvent ν)) (v : ν) (id : Hash256) :
    let after := Runs.run (step κ links) (init start) events
    (after.node v).state.transaction.state = .accepted →
    (after.node v).state.transaction.pendingId = some id →
      ∃ early, early <+: events ∧ ∃ u, (u = v ∨ ∃ p q, (p, u, q) ∈ links v) ∧
        ∃ pool, ((Runs.run (step κ links) (init start) early).node u).state.mempoolStore
          = some pool ∧
          ∃ t ∈ pool.mempool.transactions, t.id κ = id := by
  intro after hstate hpending
  have hinit : (init start).Recorded κ links fun _ => ∅ := by
    refine ⟨⟨fun _ => trivial, fun v p hp => absurd hp List.not_mem_nil⟩,
      fun e he => absurd he List.not_mem_nil, fun v id haccepted => absurd haccepted (hstart v)⟩
  obtain ⟨seen, hafter, hseen⟩ := hinit.run hlinks events
  obtain ⟨u, hu, hid⟩ := hafter.told v id hstate hpending
  rcases hseen u id hid with hnone | ⟨early, hearly, hpooled⟩
  · exact absurd hnone (Set.notMem_empty id)
  · exact ⟨early, hearly, u, hu, hpooled⟩

/-! A miner with a wallet, and the full node that it has a session with. -/

/-- The miner is `false`, the full node `true`, and both ends of their session have the
id `1`. -/
def coupleLinks : Links Bool := fun v => [(1, !v, 1)]

theorem mutual_coupleLinks : Mutual coupleLinks := by
  intro u v p q h
  have heq : (q, v, p) = (1, !u, 1) := List.mem_singleton.mp h
  simp only [Prod.mk.injEq] at heq
  obtain ⟨rfl, rfl, rfl⟩ := heq
  refine List.mem_singleton.mpr ?_
  rw [Bool.not_not]

def payingMiner : NodeRuntime where
  config := ⟨.regtest, [.miner, .wallet], some (Address.fromPublicKey reference minerKey)⟩
  network := some
    { peers := [⟨1, true, fullNodeService, 1, minedFirst.id reference⟩]
      tipHeight := 1
      tipBlockId := minedFirst.id reference }

/-- The full node has the block that pays the miner. -/
def fundedNode : NodeRuntime where
  config := NodeRuntime.regtestFullNode
  chainStore := some ⟨[], Blockchain.replay reference 2 [minedFirst], []⟩
  mempoolStore := some ⟨⟨(Blockchain.replay reference 2 [minedFirst]).state, []⟩, []⟩
  network := some
    { peers := [⟨1, true, miningService, 1, minedFirst.id reference⟩]
      tipHeight := 1
      tipBlockId := minedFirst.id reference }

def coupleStart (v : Bool) : NodeRuntime := bif v then fundedNode else payingMiner

/-- The miner submits its payment. -/
def askingEvents : List (SubmissionEvent Bool) :=
  .call false (.submit minerPayment) :: List.replicate 4 (.advance false 0 {})

/-- The full node takes it and says so. -/
def answeredEvents : List (SubmissionEvent Bool) :=
  askingEvents ++ .deliver 0 :: List.replicate 3 (.advance true 0 {}) ++ [.deliver 0]

theorem accepted_was_admitted_couple :
    ((Runs.run (step reference coupleLinks) (init coupleStart) answeredEvents).node
        false).state.transaction = ⟨.accepted, some (minerPayment.id reference), none⟩ ∧
      ∃ early, early <+: answeredEvents ∧
        ∃ u, (u = false ∨ ∃ p q, (p, u, q) ∈ coupleLinks false) ∧
          ∃ pool, ((Runs.run (step reference coupleLinks) (init coupleStart) early).node
              u).state.mempoolStore = some pool ∧
            ∃ t ∈ pool.mempool.transactions, t.id reference = minerPayment.id reference := by
  have htransaction : ((Runs.run (step reference coupleLinks) (init coupleStart)
      answeredEvents).node false).state.transaction
        = ⟨.accepted, some (minerPayment.id reference), none⟩ := by
    decide +kernel
  have hstart : ∀ v, (coupleStart v).transaction.state ≠ .accepted :=
    Bool.forall_bool.mpr ⟨by decide +kernel, by decide +kernel⟩
  exact ⟨htransaction, accepted_was_admitted reference coupleLinks mutual_coupleLinks coupleStart
    hstart answeredEvents false (minerPayment.id reference) (by rw [htransaction])
    (by rw [htransaction])⟩

end Correspondence

end BBC
