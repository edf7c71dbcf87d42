/-
# `BBC.Network.SessionGate` — what one session lets through

`Session::handle_message` is a gate: the first frame must be a `HELLO` that passes, then
`PING` and `PONG` are handled inside, every other message goes to the application, and
another `HELLO` ends the session.  The state of the gate is spread over three fields:

    `remote_hello_`   `handshake_complete_`   `stopped_`
        none               false                 false      nothing has come in
        some               true                  false      the gate is open
                                                 true       and no read is under way: closed

Everything else that runs on the network thread, for this session or for others, leaves the
first two fields alone, and a session that has stopped and reads no more never reads again.
-/
import BBC.Network.Arrival

namespace BBC

open Runs (Along)

namespace Session

/-- No message has come in. -/
def Fresh (s : Session) : Prop := s.remoteHello = none ∧ s.stopped = false

/-- The gate is open. -/
def Ready (s : Session) : Prop :=
  s.remoteHello.isSome = true ∧ s.handshakeComplete = true ∧ s.stopped = false

theorem Ready.greeted {s : Session} (h : s.Ready) : ¬ s.remoteHello.isNone = true := by
  have hsome := h.1
  cases hhello : s.remoteHello with
  | none => rw [hhello] at hsome; cases hsome
  | some hello => exact Bool.false_ne_true

/-- Stopped, with no read that could still succeed. -/
def Spent (s : Session) : Prop := s.stopped = true ∧ (s.reading = .nothing ∨ s.readOpen = false)

/-- A change beside the gate. -/
structure Beside (s s' : Session) : Prop where
  remoteHello : s'.remoteHello = s.remoteHello
  handshakeComplete : s'.handshakeComplete = s.handshakeComplete
  spent : s.Spent → s'.Spent

theorem Beside.refl (s : Session) : s.Beside s := ⟨rfl, rfl, id⟩

theorem Beside.trans {s s' s'' : Session} (h : s.Beside s') (h' : s'.Beside s'') :
    s.Beside s'' :=
  ⟨h'.remoteHello.trans h.remoteHello, h'.handshakeComplete.trans h.handshakeComplete,
    fun hs => h'.spent (h.spent hs)⟩

theorem beside_endRead (s : Session) : s.Beside s.endRead := ⟨rfl, rfl, fun h => ⟨h.1, Or.inl rfl⟩⟩

theorem beside_startRead (reading : Reading) (s : Session) : s.Beside (s.startRead reading) := by
  refine ⟨rfl, rfl, fun h => ⟨h.1, Or.inr ?_⟩⟩
  show decide (¬ s.stopped = true) = false
  rw [h.1]
  rfl

theorem beside_queue (frame : Bytes) (s : Session) : s.Beside (s.queue frame) := by
  rw [queue]
  split_ifs
  · exact ⟨rfl, rfl, fun h => h⟩
  · exact ⟨rfl, rfl, fun h => h⟩

theorem beside_pinged (nonce : UInt64) (s : Session) : s.Beside (s.pinged nonce) :=
  ⟨rfl, rfl, fun h => h⟩

theorem beside_ponged (nonce : UInt64) (s : Session) : s.Beside (s.ponged nonce) :=
  ⟨rfl, rfl, fun h => h⟩

theorem beside_watch (nonce : Option UInt64) (s : Session) : s.Beside (s.watch nonce) :=
  ⟨rfl, rfl, fun h => h⟩

theorem beside_endWrite (s : Session) : s.Beside s.endWrite := ⟨rfl, rfl, fun h => h⟩

theorem beside_dequeue (s : Session) : s.Beside s.dequeue := ⟨rfl, rfl, fun h => h⟩

theorem beside_adopt (t : Nat) (s : Session) : s.Beside (s.adopt t) := ⟨rfl, rfl, fun h => h⟩

theorem beside_halt (s : Session) : s.Beside s.halt := ⟨rfl, rfl, fun h => ⟨rfl, h.2⟩⟩

theorem outbound_queue (frame : Bytes) (s : Session) :
    (s.queue frame).outbound = s.outbound ++ [frame] := by
  rw [queue]
  split_ifs
  · rfl
  · rfl

theorem ready_queue {s : Session} (h : s.Ready) (frame : Bytes) : (s.queue frame).Ready := by
  rw [queue]
  split_ifs
  · exact h
  · exact h

end Session

namespace PeerNetwork

variable {κ : Crypto} {n n' n'' : PeerNetwork} {id x : Nat}

/-- The messages of a session that the application has been given. -/
def deliveredOn (n : PeerNetwork) (id : Nat) : List Message :=
  (n.delivered.filter fun entry => entry.1 = id).map Prod.snd

/-- The session has the property. -/
def At (n : PeerNetwork) (id : Nat) (P : Session → Prop) : Prop :=
  ∃ s, n.objects id = some s ∧ P s

/-! ## What leaves the gate of a session alone -/

structure Steady (id : Nat) (n n' : PeerNetwork) : Prop where
  absent : n.objects id = none → n'.objects id = none
  object : ∀ s, n.objects id = some s → ∃ s', n'.objects id = some s' ∧ s.Beside s'
  delivered : n'.deliveredOn id = n.deliveredOn id
  emitted : ∀ event ∈ n.emitted, event ∈ n'.emitted

theorem Steady.trans (h : Steady id n n') (h' : Steady id n' n'') : Steady id n n'' where
  absent hs := h'.absent (h.absent hs)
  object s hs := by
    obtain ⟨s', hs', hbeside⟩ := h.object s hs
    obtain ⟨s'', hs'', hbeside'⟩ := h'.object s' hs'
    exact ⟨s'', hs'', hbeside.trans hbeside'⟩
  delivered := h'.delivered.trans h.delivered
  emitted event he := h'.emitted event (h.emitted event he)

theorem steady_of_eq (hobjects : n'.objects = n.objects) (hdelivered : n'.delivered = n.delivered)
    (hemitted : n'.emitted = n.emitted) : Steady id n n' where
  absent hs := by rw [hobjects]; exact hs
  object s hs := ⟨s, by rw [hobjects]; exact hs, .refl s⟩
  delivered := by rw [deliveredOn, deliveredOn, hdelivered]
  emitted event he := by rw [hemitted]; exact he

theorem Steady.refl (id : Nat) (n : PeerNetwork) : Steady id n n := steady_of_eq rfl rfl rfl

theorem steady_emit (id : Nat) (n : PeerNetwork) (event : PeerEvent) :
    Steady id n (n.emit event) where
  absent hs := hs
  object s hs := ⟨s, hs, .refl s⟩
  delivered := rfl
  emitted _ he := List.mem_append_left _ he

theorem steady_modifyTarget (id : Nat) (n : PeerNetwork) (t : Nat) (f : Target → Target) :
    Steady id n (n.modifyTarget t f) := steady_of_eq rfl rfl rfl

theorem steady_modifySession (n : PeerNetwork) (x : Nat) {f : Session → Session}
    (hf : ∀ s : Session, s.Beside (f s)) : Steady id n (n.modifySession x f) where
  absent hs := by
    rw [objects_modifySession]
    split_ifs with heq
    · rw [← heq, hs]
      rfl
    · exact hs
  object s hs := by
    rw [objects_modifySession]
    split_ifs with heq
    · rw [← heq, hs]
      exact ⟨_, rfl, hf s⟩
    · exact ⟨s, hs, .refl s⟩
  delivered := rfl
  emitted _ he := he

/-- Another session may change in any way. -/
theorem steady_modifyOther (n : PeerNetwork) (hne : id ≠ x) (f : Session → Session) :
    Steady id n (n.modifySession x f) where
  absent hs := by rw [objects_modifySession, if_neg hne]; exact hs
  object s hs := ⟨s, by rw [objects_modifySession, if_neg hne]; exact hs, .refl s⟩
  delivered := rfl
  emitted _ he := he

theorem steady_recordStatus (id : Nat) (n : PeerNetwork) (x : Nat) :
    Steady id n (n.recordStatus x) := by
  rw [recordStatus]
  split
  · exact .refl id n
  · exact steady_of_eq rfl rfl rfl

theorem steady_scheduleReconnect (id : Nat) (n : PeerNetwork) (t : Nat) :
    Steady id n (n.scheduleReconnect t) := by
  rw [scheduleReconnect]
  split
  · exact .refl id n
  split_ifs
  · exact .refl id n
  · exact steady_modifyTarget id n t _

theorem steady_releaseTarget (id : Nat) (n : PeerNetwork) (x : Nat) (reconnect : Bool) :
    Steady id n (n.releaseTarget x reconnect) := by
  rw [releaseTarget]
  split
  · exact .refl id n
  dsimp only
  split_ifs
  · exact (steady_modifyTarget id n _ _).trans (steady_scheduleReconnect id _ _)
  · exact steady_modifyTarget id n _ _
  · exact .refl id n

theorem steady_stop (id : Nat) (n : PeerNetwork) (x : Nat) (reason : StopReason)
    (notifyOwner reconnect : Bool) : Steady id n (n.stop x reason notifyOwner reconnect) := by
  have hhalt : Steady id n (n.modifySession x Session.halt) :=
    steady_modifySession n x Session.beside_halt
  rw [stop]
  by_cases hopen : n.isOpen x = true
  · rw [if_pos hopen]
    cases notifyOwner with
    | true =>
        refine hhalt.trans ((steady_emit id _ (.disconnected x reason)).trans
          (Steady.trans ?_ (steady_releaseTarget id _ x reconnect)))
        exact steady_of_eq rfl rfl rfl
    | false => exact hhalt
  · rw [if_neg hopen]
    exact .refl id n

theorem steady_send (id : Nat) (n : PeerNetwork) (x : Nat) (type : MessageType) (payload : Bytes) :
    Steady id n (n.send κ x type payload) := by
  rw [send]
  split_ifs
  · exact steady_stop id n x _ true true
  · exact steady_modifySession n x (Session.beside_queue _)

theorem steady_sendPing (id : Nat) (n : PeerNetwork) (x : Nat) (nonce : UInt64) :
    Steady id n (n.sendPing κ x nonce) := by
  rw [sendPing]
  split_ifs
  · exact ((steady_modifySession n x (Session.beside_pinged nonce)).trans
      (steady_recordStatus id _ x)).trans (steady_send id _ x _ _)
  · exact .refl id n

theorem steady_sendMessage (id : Nat) (n : PeerNetwork) (x : Nat) (type : MessageType)
    (payload : Bytes) : Steady id n (n.sendMessage κ x type payload) := by
  rw [sendMessage]
  split_ifs
  · exact steady_send id n x type payload
  · exact .refl id n

theorem steady_foldl {α : Type} {f : PeerNetwork → α → PeerNetwork}
    (hf : ∀ n a, Steady id n (f n a)) (l : List α) : ∀ n, Steady id n (l.foldl f n) := by
  induction l with
  | nil => intro n; exact .refl id n
  | cons a l ih => intro n; exact (hf n a).trans (ih (f n a))

theorem steady_adoptTarget (id : Nat) (n : PeerNetwork) (x : Nat) (target : Option Nat) :
    Steady id n (n.adoptTarget x target) := by
  cases target with
  | none => exact .refl id n
  | some t =>
      exact (steady_modifySession n x (Session.beside_adopt t)).trans (steady_modifyTarget id _ t _)

theorem steady_resetDelay (id : Nat) (n : PeerNetwork) (x : Nat) :
    Steady id n (n.resetDelay x) := by
  rw [resetDelay]
  split
  · exact .refl id n
  · exact steady_modifyTarget id n _ _

theorem steady_yieldTo (id : Nat) (n : PeerNetwork) (x other : Nat) :
    Steady id n (n.yieldTo x other) := by
  rw [yieldTo]
  refine Steady.trans ?_ (steady_stop id _ x _ true false)
  split_ifs
  · exact steady_adoptTarget id n other _
  · exact .refl id n

theorem steady_replace (id : Nat) (n : PeerNetwork) (x other : Nat) :
    Steady id n (n.replace x other) := by
  rw [replace]
  refine Steady.trans ?_ (steady_stop id _ other _ true false)
  split_ifs
  · exact steady_adoptTarget id n x _
  · exact .refl id n

theorem steady_completeHandshake (id : Nat) (n : PeerNetwork) (x : Nat) (nonce : FixedBytes 16) :
    Steady id n (n.completeHandshake x nonce).1 := by
  rw [completeHandshake]
  split
  · exact steady_resetDelay id n x
  split_ifs
  · exact (steady_replace id n x _).trans (steady_resetDelay id _ x)
  · exact steady_yieldTo id n x _

/-! Reading, writing and timers -/

theorem steady_endRead (id : Nat) (n : PeerNetwork) (x : Nat) :
    Steady id n (n.modifySession x Session.endRead) :=
  steady_modifySession n x Session.beside_endRead

theorem steady_headerRead (id : Nat) (n : PeerNetwork) (x : Nat) (result : Option Bytes) :
    Steady id n (n.headerRead x result) := by
  cases result with
  | none => exact (steady_endRead id n x).trans (steady_stop id _ x _ true true)
  | some bytes =>
      rw [headerRead]
      split
      · exact (steady_endRead id n x).trans (steady_stop id _ x _ true true)
      · exact (steady_endRead id n x).trans
          (steady_modifySession _ x (Session.beside_startRead _))

theorem steady_written (id : Nat) (n : PeerNetwork) (x : Nat) (ok : Bool) :
    Steady id n (n.written x ok) := by
  have hend : Steady id n (n.modifySession x Session.endWrite) :=
    steady_modifySession n x Session.beside_endWrite
  rw [written]
  split_ifs
  · exact hend.trans (steady_modifySession _ x Session.beside_dequeue)
  · exact hend.trans (steady_stop id _ x _ true true)

theorem steady_handlePong (id : Nat) (n : PeerNetwork) (x : Nat) (s : Session) (nonce : UInt64) :
    Steady id n (n.handlePong x s nonce) := by
  have hmatch : Steady id n (n.matchPong x s nonce) := by
    rw [matchPong]
    split_ifs
    · exact ((steady_modifySession n x (Session.beside_ponged nonce)).trans
        (steady_recordStatus id _ x)).trans (steady_emit id _ _)
    · exact steady_emit id n _
  rw [handlePong]
  split_ifs
  · exact hmatch.trans (steady_modifySession _ x (Session.beside_watch none))
  · exact hmatch

/-- A frame of another session. -/
theorem steady_handleOther (hne : id ≠ x) (n : PeerNetwork) (s : Session) (type : MessageType)
    (payload : Bytes) : Steady id n (n.handleMessage κ x s type payload).1 := by
  rw [handleMessage]
  split
  · split
    · exact steady_stop id n x _ true true
    rw [handleHello]
    split
    · exact steady_stop id n x _ true true
    rename_i hello _
    have hgreet : Steady id n ((n.greet x hello).completeHandshake x hello.sessionNonce).1 :=
      (steady_modifyOther n hne _).trans (steady_completeHandshake id _ x _)
    dsimp only
    split_ifs
    · have hwelcome : ∀ m : PeerNetwork, Steady id m (m.welcome x) := fun m =>
        ((steady_modifyOther m hne _).trans (steady_recordStatus id _ x)).trans (steady_emit id _ _)
      exact hgreet.trans (hwelcome _)
    · exact hgreet
  split
  · exact steady_stop id n x _ true true
  split
  · exact steady_stop id n x _ true true
  split
  · exact steady_send id n x _ _
  split
  · exact steady_handlePong id n x s _
  · refine ⟨fun hs => hs, fun s hs => ⟨s, hs, .refl s⟩, ?_, fun _ he => he⟩
    show (List.filter _ (n.delivered ++ [(x, type, payload)])).map Prod.snd = _
    rw [List.filter_append, List.filter_singleton, decide_eq_false hne.symm]
    simp [deliveredOn]

theorem steady_payloadOther (hne : id ≠ x) (n : PeerNetwork) (s : Session) (header : FrameHeader)
    (result : Option Bytes) : Steady id n (n.payloadRead κ x s header result) := by
  cases result with
  | none => exact (steady_endRead id n x).trans (steady_stop id _ x _ true true)
  | some payload =>
      rw [payloadRead]
      split
      · exact (steady_endRead id n x).trans (steady_stop id _ x _ true true)
      dsimp only
      split
      · exact ((steady_endRead id n x).trans (steady_handleOther hne _ s _ _)).trans
          (steady_modifySession _ x (Session.beside_startRead _))
      · exact (steady_endRead id n x).trans (steady_handleOther hne _ s _ _)

theorem steady_handshakeTimer (id : Nat) (n : PeerNetwork) (x : Nat) :
    Steady id n (n.handshakeTimer x) := by
  rw [handshakeTimer]
  split_ifs
  · exact .refl id n
  · exact steady_stop id n x _ true true

theorem steady_idleTimer (id : Nat) (n : PeerNetwork) (x : Nat) :
    Steady id n (n.idleTimer κ x) := by
  rw [idleTimer]
  split_ifs
  · have hreserve : Steady id n n.reservePingNonce := steady_of_eq rfl rfl rfl
    exact (hreserve.trans (steady_modifySession _ x (Session.beside_watch _))).trans
      (steady_sendPing id _ x _)
  · exact .refl id n

theorem steady_pongTimer (id : Nat) (n : PeerNetwork) (x : Nat) (nonce : UInt64) :
    Steady id n (n.pongTimer x nonce) := by
  rw [pongTimer]
  split_ifs
  · exact steady_stop id n x _ true true
  · exact .refl id n

/-! Connections -/

theorem steady_acceptNext (id : Nat) (n : PeerNetwork) : Steady id n n.acceptNext := by
  rw [acceptNext]
  split_ifs
  · exact .refl id n
  · exact steady_of_eq rfl rfl rfl
  · exact steady_of_eq rfl rfl rfl

theorem objects_acceptNext (n : PeerNetwork) : n.acceptNext.objects = n.objects := by
  rw [acceptNext]
  split_ifs
  · rfl
  · rfl
  · rfl

/-- The session is created: it begins fresh, or has failed to send its own `HELLO` and reads
nothing. -/
structure Born (id : Nat) (n n' : PeerNetwork) : Prop where
  new : id = n.nextSessionId
  delivered : n'.deliveredOn id = n.deliveredOn id
  object : n'.At id fun s => s.Fresh ∨ s.Spent

theorem grows_createSession (id : Nat) (n : PeerNetwork) (direction : PeerDirection)
    (endpoint : Option Endpoint) (target : Option Nat) :
    Steady id n (n.createSession κ direction endpoint target)
      ∨ Born id n (n.createSession κ direction endpoint target) := by
  have hsend : ∀ (m : PeerNetwork) (x : Nat), Steady id m (((m.recordStatus x).emit
      (.connected x)).send κ x .hello (serializeHello m.localHello)) := fun m x =>
    ((steady_recordStatus id m x).trans (steady_emit id _ _)).trans (steady_send id _ x _ _)
  have hstart : ∀ (m : PeerNetwork) (x : Nat), Steady id m (m.startSession κ x) := fun m x =>
    (hsend m x).trans (steady_modifySession _ x (Session.beside_startRead _))
  by_cases hid : id = n.nextSessionId
  · right
    have hadded : (n.addSession { direction, endpoint, target }).objects n.nextSessionId
        = some { direction, endpoint, target } := Function.update_self ..
    rw [← hid] at hadded
    obtain ⟨s', hs', hbeside⟩ := (hsend _ id).object _ hadded
    refine ⟨hid, (hstart _ _).delivered, s'.startRead .header, ?_, ?_⟩
    · rw [createSession, startSession, ← hid, objects_modifySession, if_pos rfl, hs']
      rfl
    cases hstopped : s'.stopped with
    | false => exact Or.inl ⟨hbeside.remoteHello, hstopped⟩
    | true =>
        refine Or.inr ⟨hstopped, Or.inr ?_⟩
        show decide (¬ s'.stopped = true) = false
        rw [hstopped]
        rfl
  · left
    have hadd : Steady id n (n.addSession { direction, endpoint, target }) := by
      refine ⟨fun hs => ?_, fun s hs => ⟨s, ?_, .refl s⟩, rfl, fun _ he => he⟩
      · exact (Function.update_of_ne hid _ _).trans hs
      · exact (Function.update_of_ne hid _ _).trans hs
    exact hadd.trans (hstart _ _)

theorem grows_openAccepted (id : Nat) (n : PeerNetwork) (result : Option (Option Endpoint)) :
    Steady id n (n.openAccepted κ result) ∨ Born id n (n.openAccepted κ result) := by
  match result with
  | none =>
      rw [openAccepted]
      split_ifs
      · exact Or.inl (.refl id n)
      · exact Or.inl (steady_emit id n _)
  | some none => exact grows_createSession id n _ _ _
  | some (some remote) =>
      rw [openAccepted]
      split_ifs
      · exact Or.inl (steady_emit id n _)
      · exact grows_createSession id n _ _ _

theorem steady_beginConnect (id : Nat) (n : PeerNetwork) (t : Nat) :
    Steady id n (n.beginConnect t) := by
  rw [beginConnect]
  split
  · exact .refl id n
  split_ifs
  · exact .refl id n
  · exact steady_modifyTarget id n t _

theorem steady_addTarget (id : Nat) (n : PeerNetwork) (endpoint : Endpoint) :
    Steady id n (n.addTarget endpoint) := by
  rw [addTarget]
  split
  · split_ifs
    · exact steady_beginConnect id n _
    · exact .refl id n
  · have hnew : Steady id n (n.newTarget endpoint) := steady_of_eq rfl rfl rfl
    exact hnew.trans (steady_beginConnect id _ _)

theorem steady_removeTarget (id : Nat) (n : PeerNetwork) (endpoint : Endpoint) :
    Steady id n (n.removeTarget endpoint) := by
  have hstop : ∀ (m : PeerNetwork) (t : Nat), Steady id m (m.stopTargetSession t) := by
    intro m t
    rw [stopTargetSession]
    split
    · exact .refl id m
    split_ifs
    · exact steady_stop id m _ _ true false
    · exact .refl id m
  rw [removeTarget]
  split
  · exact steady_emit id n _
  · rename_i t _
    have herase : ∀ m : PeerNetwork, Steady id m (m.eraseTarget endpoint) := fun m =>
      steady_of_eq rfl rfl rfl
    exact (((steady_modifyTarget id n t _).trans (hstop _ t)).trans (herase _)).trans
      (steady_emit id _ _)

theorem grows_connected (id : Nat) (n : PeerNetwork) (t : Nat) (target : Target)
    (result : Option (Option Endpoint)) :
    Steady id n (n.connected κ t target result) ∨ Born id n (n.connected κ t target result) := by
  have hidle : Steady id n (n.modifyTarget t fun target => { target with connecting := false }) :=
    steady_modifyTarget id n t _
  cases result with
  | none =>
      rw [connected]
      split_ifs
      · exact Or.inl ((hidle.trans (steady_emit id _ _)).trans (steady_scheduleReconnect id _ t))
      · exact Or.inl hidle
  | some endpoint =>
      rw [connected]
      split_ifs
      · exact Or.inl hidle
      rcases grows_createSession (κ := κ) id (n.modifyTarget t fun target =>
          { target with connecting := false }) .outbound endpoint (some t) with hsteady | hborn
      · exact Or.inl ((hidle.trans hsteady).trans (steady_modifyTarget id _ t _))
      · exact Or.inr ⟨hborn.new, hborn.delivered, hborn.object⟩

theorem steady_shutdown (id : Nat) (n : PeerNetwork) : Steady id n n.shutdown := by
  rw [shutdown]
  refine Steady.trans ?_ (steady_foldl (fun m entry => steady_modifyTarget id m _ _) _ _)
  have hflags : Steady id n { n with stopping := true, accepting := false } :=
    steady_of_eq rfl rfl rfl
  have hall : Steady id { n with stopping := true, accepting := false }
      ({ n with stopping := true, accepting := false }.stopAll n.sessions) :=
    steady_foldl (fun m x => steady_stop id m x _ false true) _ _
  exact (hflags.trans hall).trans (steady_of_eq rfl rfl rfl)

/-! ## The frames of a session -/

/-- The frame that a handler takes from a session: its payload has been read whole and
has passed its check. -/
def frameOf (κ : Crypto) (id : Nat) (n : PeerNetwork) : NetworkEvent → Option Message
  | .payloadRead x (some payload) =>
      if x = id then
        match n.objects id with
        | some s =>
            match s.reading with
            | .payload header =>
                if readable s header.payloadLength.toNat (some payload)
                    ∧ validateFramePayload κ header payload = .none then
                  some (header.type, payload)
                else none
            | _ => none
        | none => none
      else none
  | _ => none

/-- Every other handler leaves the gate alone; those that create sessions come next. -/
theorem steady_step (e : NetworkEvent) (hframe : frameOf κ id n e = none)
    (haccepted : ∀ result, e ≠ .accepted result)
    (hconnected : ∀ t result, e ≠ .connected t result) : Steady id n (n.step κ e) := by
  cases e with
  | accepted result => exact absurd rfl (haccepted result)
  | connected t result => exact absurd rfl (hconnected t result)
  | acceptRetry =>
      rw [step]
      split_ifs
      · have hflag : Steady id n { n with acceptRetryArmed := false } :=
          steady_of_eq rfl rfl rfl
        exact hflag.trans (steady_acceptNext id _)
      · exact .refl id n
  | reconnectTimer t =>
      rw [step]
      split_ifs
      · exact (steady_modifyTarget id n t _).trans (steady_beginConnect id _ t)
      · exact .refl id n
  | headerRead x result =>
      rw [step]
      split
      · split_ifs
        · exact steady_headerRead id n x result
        · exact .refl id n
      · exact .refl id n
  | payloadRead x result =>
      rw [step]
      cases hs : n.objects x with
      | none => exact .refl id n
      | some s =>
          dsimp only
          cases hreading : s.reading with
          | nothing => exact .refl id n
          | header => exact .refl id n
          | payload header =>
              dsimp only
              split_ifs with hreadable
              · by_cases hne : id = x
                · subst hne
                  cases result with
                  | none =>
                      rw [payloadRead]
                      exact (steady_endRead id n id).trans (steady_stop id _ id _ true true)
                  | some payload =>
                      have hinvalid : validateFramePayload κ header payload ≠ .none := by
                        intro hvalid
                        rw [frameOf, if_pos rfl, hs] at hframe
                        dsimp only at hframe
                        rw [hreading] at hframe
                        dsimp only at hframe
                        rw [if_pos ⟨hreadable, hvalid⟩] at hframe
                        cases hframe
                      rw [payloadRead]
                      dsimp only
                      rw [if_pos hinvalid]
                      exact (steady_endRead id n id).trans (steady_stop id _ id _ true true)
                · exact steady_payloadOther hne n s header result
              · exact .refl id n
  | written x ok =>
      rw [step]
      split_ifs
      · exact steady_written id n x ok
      · exact .refl id n
  | handshakeTimer x => exact steady_handshakeTimer id n x
  | idleTimer x => exact steady_idleTimer id n x
  | pongTimer x nonce => exact steady_pongTimer id n x nonce
  | connect address port =>
      rw [step]
      split
      · exact steady_addTarget id n _
      · exact .refl id n
  | disconnect address port =>
      rw [step]
      split
      · exact steady_removeTarget id n _
      · exact .refl id n
  | reservePing => exact steady_of_eq rfl rfl rfl
  | pingAll nonce =>
      exact eachSession_invariant (fun m x hm => hm.trans (steady_sendPing id m x nonce))
        (fun m hm => hm.trans (steady_of_eq rfl rfl rfl)) _ (.refl id n)
  | updateTip height tip => exact steady_of_eq rfl rfl rfl
  | sendMessage x type payload =>
      rw [step]
      split_ifs
      · exact steady_sendMessage id n x type payload
      · exact .refl id n
  | broadcast type payload excludedPeer =>
      refine eachSession_invariant (fun m x hm => hm.trans ?_)
        (fun m hm => hm.trans (steady_of_eq rfl rfl rfl)) _ (.refl id n)
      split_ifs
      · exact .refl id m
      · exact steady_sendMessage id m x type payload
  | shutdown => exact steady_shutdown id n

/-- Every other handler leaves the gate alone, or creates the session. -/
theorem grows_step (e : NetworkEvent) (hframe : frameOf κ id n e = none) :
    Steady id n (n.step κ e) ∨ Born id n (n.step κ e) := by
  cases e with
  | accepted result =>
      rw [step]
      split_ifs
      · have hflag : Steady id n { n with accepting := false } := steady_of_eq rfl rfl rfl
        have hnext := steady_acceptNext id ({ n with accepting := false }.openAccepted κ result)
        rcases grows_openAccepted (κ := κ) id { n with accepting := false } result with
          hsteady | hborn
        · exact Or.inl ((hflag.trans hsteady).trans hnext)
        · obtain ⟨s, hs, hbegun⟩ := hborn.object
          refine Or.inr ⟨hborn.new, hnext.delivered.trans hborn.delivered, s, ?_, hbegun⟩
          rw [accepted, objects_acceptNext]
          exact hs
      · exact Or.inl (.refl id n)
  | connected t result =>
      rw [step]
      split
      · split_ifs
        · exact grows_connected id n t _ result
        · exact Or.inl (.refl id n)
      · exact Or.inl (.refl id n)
  | _ =>
      exact Or.inl (steady_step _ hframe (fun _ heq => by cases heq) fun _ _ heq => by cases heq)

/-! ## An acceptable `HELLO` -/

/-- `complete_handshake` refuses the session as a duplicate: another one has been greeted
with the same nonce and is not the one to be replaced. -/
def GivesWay (n : PeerNetwork) (id : Nat) (nonce : FixedBytes 16) : Prop :=
  ∃ other, n.duplicateOf id nonce = some other ∧
    ¬ (n.directed id (n.preferred nonce) ∧ ¬ n.directed other (n.preferred nonce))

/-- A frame that opens the gate. -/
structure Acceptable (n : PeerNetwork) (id : Nat) (message : Message) (hello : HelloPayload) :
    Prop where
  type : message.1 = .hello
  decoded : deserializeHello message.2 = .ok hello
  chainId : hello.chainId = n.config.chainId
  genesisBlockId : hello.genesisBlockId = n.config.genesisBlockId
  foreign : hello.sessionNonce ≠ n.sessionNonce
  services : hello.services &&& (fullNodeService ||| miningService) ≠ 0
  version : max hello.minimumProtocolVersion protocolVersion
    ≤ min hello.maximumProtocolVersion protocolVersion
  kept : ¬ n.GivesWay id hello.sessionNonce

theorem checkHello_ok_iff {payload : Bytes} {hello : HelloPayload} :
    n.checkHello payload = .ok hello ↔ deserializeHello payload = .ok hello ∧
      hello.chainId = n.config.chainId ∧ hello.genesisBlockId = n.config.genesisBlockId ∧
      hello.sessionNonce ≠ n.sessionNonce ∧
      hello.services &&& (fullNodeService ||| miningService) ≠ 0 ∧
      max hello.minimumProtocolVersion protocolVersion
        ≤ min hello.maximumProtocolVersion protocolVersion := by
  rw [checkHello]
  cases hdecoded : deserializeHello payload with
  | error e =>
      refine iff_of_false (fun h => by cases h) fun h => ?_
      cases h.1
  | ok decoded =>
      dsimp only
      constructor
      · intro h
        split_ifs at h with hidentity hself hservices hversion
        cases h
        obtain ⟨hchain, hgenesis⟩ := not_or.mp hidentity
        exact ⟨rfl, not_not.mp hchain, not_not.mp hgenesis, hself, hservices,
          UInt16.not_lt.mp hversion⟩
      · rintro ⟨heq, hchain, hgenesis, hself, hservices, hversion⟩
        cases heq
        rw [if_neg (by simp [hchain, hgenesis]), if_neg hself, if_neg hservices,
          if_neg (UInt16.not_lt.mpr hversion)]

/-- What `complete_handshake` does to its session. -/
theorem completeHandshake_self {s : Session} (hs : n.objects id = some s)
    (nonce : FixedBytes 16) :
    (n.GivesWay id nonce → (n.completeHandshake id nonce).2 = false ∧
      (n.completeHandshake id nonce).1.objects id = some s.halt) ∧
    (¬ n.GivesWay id nonce → (n.completeHandshake id nonce).2 = true ∧
      ∃ target, (n.completeHandshake id nonce).1.objects id
        = some { s with target := target }) := by
  rw [completeHandshake]
  cases hdup : n.duplicateOf id nonce with
  | none =>
      constructor
      · rintro ⟨other, hother, -⟩
        rw [hdup] at hother
        cases hother
      · intro _
        exact ⟨rfl, s.target, by rw [objects_resetDelay]; exact hs⟩
  | some other =>
      have hne : other ≠ id := by
        have hfound := List.find?_some hdup
        exact (of_decide_eq_true hfound).1
      have hadopt : ∀ (x : Nat) (target : Option Nat) (y : Nat), y ≠ x →
          (n.adoptTarget x target).objects y = n.objects y := by
        intro x target y hy
        cases target with
        | none => rfl
        | some t => exact (objects_modifySession n x _ y).trans (if_neg hy)
      dsimp only
      by_cases hprefer : n.directed id (n.preferred nonce) = true ∧
          ¬ n.directed other (n.preferred nonce) = true
      · rw [if_pos hprefer]
        refine ⟨?_, fun _ => ⟨rfl, ?_⟩⟩
        · rintro ⟨other', hother', hnot⟩
          rw [hdup] at hother'
          cases hother'
          exact absurd hprefer hnot
        · rw [objects_resetDelay, replace, objects_stop, if_neg hne.symm]
          split_ifs
          · cases htarget : n.targetOf other with
            | none => exact ⟨s.target, hs⟩
            | some t =>
                refine ⟨some t, (objects_modifySession n id _ id).trans ?_⟩
                rw [if_pos rfl, hs]
                rfl
          · exact ⟨s.target, hs⟩
      · rw [if_neg hprefer]
        refine ⟨fun _ => ⟨rfl, ?_⟩, fun hnot => absurd ⟨other, hdup, hprefer⟩ hnot⟩
        rw [yieldTo, objects_stop, if_pos rfl]
        split_ifs
        · rw [hadopt other _ id hne.symm, hs]
          rfl
        · rw [hs]
          rfl

/-! ## One frame -/

/-- The frames that wait to be written. -/
def outboundOf (n : PeerNetwork) (id : Nat) : List Bytes :=
  ((n.objects id).map Session.outbound).getD []

/-- The messages that are not handled inside. -/
def application (message : Message) : Bool :=
  message.1 ≠ .hello ∧ message.1 ≠ .ping ∧ message.1 ≠ .pong

/-- The frame of the `PONG` with the nonce of a `PING`. -/
def pongTo (κ : Crypto) (n : PeerNetwork) (ping : Message) : Bytes :=
  serializeFrame κ n.config.chainId .pong (serializePingNonce (deserializePingNonce ping.2))

/-- What the handler of one frame has done for its session: `sent` has been queued and
`given` handed to the application. -/
structure Handled (id : Nat) (n n' : PeerNetwork) (sent : List Bytes) (given : List Message) :
    Prop where
  outbound : n'.outboundOf id = n.outboundOf id ++ sent
  delivered : n'.deliveredOn id = n.deliveredOn id ++ given
  emitted : ∀ event ∈ n.emitted, event ∈ n'.emitted

/-- The gate's work, when it is silent: the two sessions differ beside the queue. -/
theorem handled_of_steady (h : Steady id n n') {s s' : Session} (hs : n.objects id = some s)
    (hs' : n'.objects id = some s') (hqueue : s'.outbound = s.outbound) :
    Handled id n n' [] [] where
  outbound := by
    rw [outboundOf, outboundOf, hs, hs', List.append_nil]
    exact hqueue
  delivered := by rw [h.delivered, List.append_nil]
  emitted := h.emitted

/-- The handler of a frame. -/
theorem step_frame {s : Session} (hs : n.objects id = some s) {e : NetworkEvent}
    {message : Message} (hframe : frameOf κ id n e = some message) :
    n.step κ e
      = if ((n.modifySession id Session.endRead).handleMessage κ id s message.1 message.2).2 then
          ((n.modifySession id Session.endRead).handleMessage κ id s message.1
            message.2).1.modifySession id (Session.startRead .header)
        else ((n.modifySession id Session.endRead).handleMessage κ id s message.1
            message.2).1 := by
  unfold frameOf at hframe
  split at hframe
  swap
  · cases hframe
  rename_i x payload
  split_ifs at hframe with hx
  subst hx
  rw [hs] at hframe
  dsimp only at hframe
  split at hframe
  · rename_i header hreading
    split_ifs at hframe with hchecks
    cases hframe
    rw [step, hs]
    dsimp only
    rw [hreading]
    dsimp only
    rw [if_pos hchecks.1, payloadRead, if_neg (not_not.mpr hchecks.2)]
  · cases hframe

/-- A session that is spent takes no frame. -/
theorem frameOf_spent {s : Session} (hs : n.objects id = some s) (hspent : s.Spent)
    (e : NetworkEvent) : frameOf κ id n e = none := by
  unfold frameOf
  split
  swap
  · rfl
  split_ifs
  swap
  · rfl
  rw [hs]
  dsimp only
  rcases hspent.2 with hnothing | hclosed
  · rw [hnothing]
  · split
    · rw [if_neg]
      rintro ⟨hreadable, -⟩
      rw [readable, Option.all_some, hclosed] at hreadable
      simp at hreadable
    · rfl

/-- Reading and greeting do not bear on what the loop over the other sessions finds. -/
theorem givesWay_greet (hello : HelloPayload) (nonce : FixedBytes 16) :
    ((n.modifySession id Session.endRead).greet id hello).GivesWay id nonce
      ↔ n.GivesWay id nonce := by
  have hread : ∀ other direction, (n.modifySession id Session.endRead).directed other direction
      = n.directed other direction := directed_modifySession (fun _ => rfl)
  have hgreet : ∀ (m : PeerNetwork) other direction,
      (m.greet id hello).directed other direction = m.directed other direction :=
    fun m => directed_modifySession (fun _ => rfl)
  have hpreferred : ((n.modifySession id Session.endRead).greet id hello).preferred nonce
      = n.preferred nonce := rfl
  rw [GivesWay, GivesWay, hpreferred, greet, duplicateOf_modifySession, duplicateOf_modifySession,
    ← greet]
  simp only [hgreet, hread]

theorem handlePong_self (s : Session) {t : Session} (ht : n.objects id = some t) (nonce : UInt64) :
    ∃ t', (n.handlePong id s nonce).objects id = some t' ∧ t'.outbound = t.outbound
      ∧ (t.Ready → t'.Ready) := by
  have hmatch : ∃ t', (n.matchPong id s nonce).objects id = some t' ∧ t'.outbound = t.outbound
      ∧ (t.Ready → t'.Ready) := by
    rw [matchPong]
    split_ifs
    · refine ⟨t.ponged nonce, ?_, rfl, fun h => h⟩
      show ((n.modifySession id (Session.ponged nonce)).recordStatus id).objects id = _
      rw [objects_recordStatus, objects_modifySession, if_pos rfl, ht]
      rfl
    · exact ⟨t, ht, rfl, fun h => h⟩
  obtain ⟨t', ht', hqueue, hready⟩ := hmatch
  rw [handlePong]
  split_ifs
  · refine ⟨t'.watch none, ?_, hqueue, hready⟩
    rw [objects_modifySession, if_pos rfl, ht']
    rfl
  · exact ⟨t', ht', hqueue, hready⟩

section frame
variable {s : Session} (hs : n.objects id = some s) {e : NetworkEvent} {message : Message}
  (hframe : frameOf κ id n e = some message)

include hs hframe

/-- A frame that only stops its session. -/
theorem handled_stop (reason : StopReason)
    (hmessage : (n.modifySession id Session.endRead).handleMessage κ id s message.1 message.2
      = ((n.modifySession id Session.endRead).stop id reason true true, false)) :
    Handled id n (n.step κ e) [] [] ∧ (n.step κ e).At id Session.Spent := by
  rw [step_frame hs hframe, hmessage, if_neg Bool.false_ne_true]
  have hobject : ((n.modifySession id Session.endRead).stop id reason true true).objects id
      = some s.endRead.halt := by
    rw [objects_stop, if_pos rfl, objects_modifySession, if_pos rfl, hs]
    rfl
  refine ⟨handled_of_steady ((steady_endRead id n id).trans (steady_stop id _ id _ true true)) hs
    hobject rfl, _, hobject, rfl, Or.inl rfl⟩

/-- A first frame that is not acceptable. -/
theorem frame_refused (hfresh : s.Fresh)
    (hnot : ∀ hello, ¬ n.Acceptable id message hello) :
    Handled id n (n.step κ e) [] [] ∧ (n.step κ e).At id Session.Spent := by
  have hfirst : s.remoteHello.isNone = true := by
    rw [hfresh.1]
    rfl
  by_cases htype : message.1 = .hello
  swap
  · exact handled_stop hs hframe .helloMustBeFirst
      (by rw [handleMessage, if_pos hfirst, if_pos htype])
  cases hcheck : n.checkHello message.2 with
  | error reason =>
      refine handled_stop hs hframe reason ?_
      have hsame : (n.modifySession id Session.endRead).checkHello message.2 = .error reason :=
        hcheck
      rw [handleMessage, if_pos hfirst, if_neg (not_not.mpr htype), handleHello, hsame]
  | ok hello =>
      -- the checks pass, so the session gives way to another one
      obtain ⟨hdecoded, hchain, hgenesis, hforeign, hservices, hversion⟩ :=
        checkHello_ok_iff.mp hcheck
      have hway : n.GivesWay id hello.sessionNonce := by
        by_contra hkept
        exact hnot hello ⟨htype, hdecoded, hchain, hgenesis, hforeign, hservices, hversion, hkept⟩
      have hread : (n.modifySession id Session.endRead).checkHello message.2 = .ok hello := hcheck
      have hgreeted : ((n.modifySession id Session.endRead).greet id hello).objects id
          = some (s.endRead.greet hello) := by
        rw [objects_greet, if_pos rfl, objects_modifySession, if_pos rfl, hs]
        rfl
      obtain ⟨hfalse, hobject⟩ := (completeHandshake_self hgreeted hello.sessionNonce).1
        ((givesWay_greet hello _).mpr hway)
      have hmessage : (n.modifySession id Session.endRead).handleMessage κ id s message.1 message.2
          = ((((n.modifySession id Session.endRead).greet id hello).completeHandshake id
              hello.sessionNonce).1, false) := by
        rw [handleMessage, if_pos hfirst, if_neg (not_not.mpr htype), handleHello, hread]
        dsimp only
        rw [if_neg (by rw [hfalse]; exact Bool.false_ne_true)]
      rw [step_frame hs hframe, hmessage, if_neg Bool.false_ne_true]
      have hsteady := steady_completeHandshake id
        ((n.modifySession id Session.endRead).greet id hello)
        id hello.sessionNonce
      refine ⟨⟨?_, ?_, hsteady.emitted⟩, _, hobject, rfl, Or.inl rfl⟩
      · rw [outboundOf, outboundOf, hobject, hs, List.append_nil]
        rfl
      · rw [hsteady.delivered, List.append_nil]
        rfl

/-- A first frame that is acceptable. -/
theorem frame_admitted (hfresh : s.Fresh) {hello : HelloPayload}
    (h : n.Acceptable id message hello) :
    Handled id n (n.step κ e) [] [] ∧ (n.step κ e).At id Session.Ready := by
  have hfirst : s.remoteHello.isNone = true := by
    rw [hfresh.1]
    rfl
  have hcheck : (n.modifySession id Session.endRead).checkHello message.2 = .ok hello :=
    checkHello_ok_iff.mpr ⟨h.decoded, h.chainId, h.genesisBlockId, h.foreign, h.services, h.version⟩
  have hgreeted : ((n.modifySession id Session.endRead).greet id hello).objects id
      = some (s.endRead.greet hello) := by
    rw [objects_greet, if_pos rfl, objects_modifySession, if_pos rfl, hs]
    rfl
  obtain ⟨htrue, target, hobject⟩ := (completeHandshake_self hgreeted hello.sessionNonce).2
    fun hway => h.kept ((givesWay_greet hello _).mp hway)
  have hsteady := steady_completeHandshake id ((n.modifySession id Session.endRead).greet id hello)
    id hello.sessionNonce
  generalize hshaken : ((n.modifySession id Session.endRead).greet id hello).completeHandshake id
    hello.sessionNonce = shaken at htrue hobject hsteady
  have hmessage : (n.modifySession id Session.endRead).handleMessage κ id s message.1 message.2
      = (shaken.1.welcome id, true) := by
    rw [handleMessage, if_pos hfirst, if_neg (not_not.mpr h.type), handleHello, hcheck]
    dsimp only
    rw [hshaken, if_pos htrue]
  have hafter : ((shaken.1.welcome id).modifySession id (Session.startRead .header)).objects id
      = some (Session.startRead .header
          (Session.welcome { s.endRead.greet hello with target := target })) := by
    have hwelcome : (shaken.1.welcome id).objects id
        = some (Session.welcome { s.endRead.greet hello with target := target }) := by
      show ((shaken.1.modifySession id Session.welcome).recordStatus id).objects id = _
      rw [objects_recordStatus, objects_modifySession, if_pos rfl, hobject]
      rfl
    rw [objects_modifySession, if_pos rfl, hwelcome]
    rfl
  have hdelivered : ∀ m : PeerNetwork, (m.welcome id).delivered = m.delivered := by
    intro m
    show (((m.modifySession id Session.welcome).recordStatus id).emit _).delivered = _
    rw [emit, recordStatus]
    split
    · rfl
    · rfl
  have hemitted : ∀ m : PeerNetwork, ∀ event ∈ m.emitted, event ∈ (m.welcome id).emitted := by
    intro m event hevent
    show event ∈ (((m.modifySession id Session.welcome).recordStatus id).emit _).emitted
    rw [emit, recordStatus]
    split
    · exact List.mem_append_left _ hevent
    · exact List.mem_append_left _ hevent
  rw [step_frame hs hframe, hmessage, if_pos rfl]
  refine ⟨⟨?_, ?_, fun event hevent => hemitted _ _ (hsteady.emitted event hevent)⟩, _, hafter,
    rfl, rfl, hfresh.2⟩
  · rw [outboundOf, outboundOf, hafter, hs, List.append_nil]
    rfl
  · rw [List.append_nil]
    show ((shaken.1.welcome id).delivered.filter _).map _ = _
    rw [hdelivered]
    exact hsteady.delivered

/-- A frame after which the next header is read. -/
theorem frame_continues {m : PeerNetwork} {s' : Session} (sent : List Bytes) (given : List Message)
    (hmessage : (n.modifySession id Session.endRead).handleMessage κ id s message.1 message.2
      = (m, true))
    (hm : m.objects id = some s') (hqueue : s'.outbound = s.outbound ++ sent)
    (hdelivered : m.deliveredOn id = n.deliveredOn id ++ given)
    (hemitted : ∀ event ∈ n.emitted, event ∈ m.emitted) :
    Handled id n (n.step κ e) sent given ∧ (n.step κ e).emitted = m.emitted
      ∧ (n.step κ e).objects id = some (s'.startRead .header) := by
  rw [step_frame hs hframe, hmessage, if_pos rfl]
  have hobject : (m.modifySession id (Session.startRead .header)).objects id
      = some (s'.startRead .header) := by
    rw [objects_modifySession, if_pos rfl, hm]
    rfl
  refine ⟨⟨?_, hdelivered, hemitted⟩, rfl, hobject⟩
  rw [outboundOf, outboundOf, hobject, hs]
  exact hqueue

section ready
variable (hready : s.Ready)

include hready

/-- Another `HELLO`. -/
theorem frame_hello (htype : message.1 = .hello) :
    Handled id n (n.step κ e) [] [] ∧ (n.step κ e).At id Session.Spent := by
  refine handled_stop hs hframe .duplicateHello ?_
  rw [handleMessage, if_neg hready.greeted, if_pos htype]

omit hframe hs in
/-- Past the two checks of the gate. -/
theorem handleMessage_ready (κ : Crypto) (id : Nat) (m : PeerNetwork) {type : MessageType}
    (payload : Bytes)
    (htype : type ≠ .hello) :
    m.handleMessage κ id s type payload
      = if type = .ping then
          (m.send κ id .pong (serializePingNonce (deserializePingNonce payload)), true)
        else if type = .pong then (m.handlePong id s (deserializePingNonce payload), true)
        else (m.deliver id type payload, true) := by
  rw [handleMessage, if_neg hready.greeted, if_neg htype, if_neg (not_not.mpr hready.2.1)]

/-- A `PING` is answered, or the limit of the queue stops the session. -/
theorem frame_ping (htype : message.1 = .ping) :
    Handled id n (n.step κ e) [pongTo κ n message] [] ∧ (n.step κ e).At id Session.Ready ∨
    Handled id n (n.step κ e) [] [] ∧ (n.step κ e).At id Session.Spent ∧
      .disconnected id .outboundQueueLimitExceeded ∈ (n.step κ e).emitted := by
  have hobject : (n.modifySession id Session.endRead).objects id = some s.endRead := by
    rw [objects_modifySession, if_pos rfl, hs]
    rfl
  have hmessage := handleMessage_ready hready κ id
    (n.modifySession id Session.endRead) message.2
    (show message.1 ≠ .hello by rw [htype]; exact nofun)
  rw [if_pos htype, send] at hmessage
  have hopen : (n.modifySession id Session.endRead).isOpen id = true :=
    isOpen_eq_true.mpr ⟨_, hobject, hready.2.2⟩
  split_ifs at hmessage with hlimit
  · right
    have hsteady := (steady_endRead id n id).trans
      (steady_stop id _ id .outboundQueueLimitExceeded true true)
    have hstopped : ((n.modifySession id Session.endRead).stop id .outboundQueueLimitExceeded
        true true).objects id = some s.endRead.halt := by
      rw [objects_stop, if_pos rfl, hobject]
      rfl
    obtain ⟨hhandled, hemitted, hafter⟩ := frame_continues hs hframe [] [] hmessage hstopped
      (List.append_nil _).symm
      (hsteady.delivered.trans (List.append_nil _).symm) hsteady.emitted
    refine ⟨hhandled, ⟨_, hafter, rfl, Or.inr rfl⟩, ?_⟩
    rw [hemitted, stop_notified, if_pos hopen]
    exact (steady_releaseTarget id _ id true).emitted _
      (List.mem_append_right _ (List.mem_singleton_self _))
  · left
    have hqueued : ((n.modifySession id Session.endRead).modifySession id
        (Session.queue (pongTo κ n message))).objects id
          = some (s.endRead.queue (pongTo κ n message)) := by
      rw [objects_modifySession, if_pos rfl, hobject]
      rfl
    obtain ⟨hhandled, -, hafter⟩ := frame_continues hs hframe [pongTo κ n message]
      [] hmessage hqueued
      (Session.outbound_queue _ _)
      (List.append_nil _).symm fun _ he => he
    exact ⟨hhandled, _, hafter, Session.ready_queue (s := s.endRead) hready _⟩

/-- A `PONG` is looked at inside. -/
theorem frame_pong (htype : message.1 = .pong) :
    Handled id n (n.step κ e) [] [] ∧ (n.step κ e).At id Session.Ready := by
  have hmessage := handleMessage_ready hready κ id
    (n.modifySession id Session.endRead) message.2
    (show message.1 ≠ .hello by rw [htype]; exact nofun)
  rw [if_neg (show message.1 ≠ .ping by rw [htype]; exact nofun), if_pos htype] at hmessage
  have hsteady := (steady_endRead id n id).trans
    (steady_handlePong id _ id s (deserializePingNonce message.2))
  obtain ⟨s', hs', hqueue, hready'⟩ := handlePong_self s
    (show (n.modifySession id Session.endRead).objects id = some s.endRead by
      rw [objects_modifySession, if_pos rfl, hs]; rfl) (deserializePingNonce message.2)
  obtain ⟨hhandled, -, hafter⟩ := frame_continues hs hframe [] [] hmessage hs'
    (hqueue.trans (List.append_nil _).symm)
    (hsteady.delivered.trans (List.append_nil _).symm) hsteady.emitted
  exact ⟨hhandled, _, hafter, hready' hready⟩

/-- Any other message goes to the application. -/
theorem frame_application (happlication : application message = true) :
    Handled id n (n.step κ e) [] [message] ∧ (n.step κ e).At id Session.Ready := by
  obtain ⟨hhello, hping, hpong⟩ := of_decide_eq_true happlication
  have hmessage := handleMessage_ready hready κ id
    (n.modifySession id Session.endRead) message.2 hhello
  rw [if_neg hping, if_neg hpong] at hmessage
  have hobject : ((n.modifySession id Session.endRead).deliver id message.1 message.2).objects id
      = some s.endRead := (objects_modifySession n id _ id).trans (by rw [if_pos rfl, hs]; rfl)
  obtain ⟨hhandled, -, hafter⟩ := frame_continues hs hframe [] [message] hmessage hobject
    (List.append_nil _).symm
    (by
      show (List.filter _ (n.delivered ++ [(id, message.1, message.2)])).map Prod.snd = _
      rw [List.filter_append, List.filter_singleton, decide_eq_true rfl, List.map_append]
      rfl)
    fun _ he => he
  exact ⟨hhandled, _, hafter, hready⟩

end ready

end frame

/-! ## The life of a session -/

/-- No other event stops the session. -/
def Unstopped (κ : Crypto) (id : Nat) (n : PeerNetwork) (e : NetworkEvent) : Prop :=
  frameOf κ id n e = none → n.isOpen id = true → (n.step κ e).isOpen id = true

instance (κ : Crypto) (id : Nat) (n : PeerNetwork) (e : NetworkEvent) :
    Decidable (Unstopped κ id n e) :=
  inferInstanceAs (Decidable (_ → _ → _))

/-- The frames that come in on the session, each with the state it meets. -/
def framesOf (κ : Crypto) (id : Nat) :
    PeerNetwork → List NetworkEvent → List (PeerNetwork × Message)
  | _, [] => []
  | n, e :: events =>
      ((frameOf κ id n e).map (n, ·)).toList ++ framesOf κ id (n.step κ e) events

/-- What the handlers of these frames append to the queue of the session. -/
def repliesOf (κ : Crypto) (id : Nat) : PeerNetwork → List NetworkEvent → List Bytes
  | _, [] => []
  | n, e :: events =>
      (if (frameOf κ id n e).isSome then
        ((n.step κ e).outboundOf id).drop (n.outboundOf id).length
      else []) ++ repliesOf κ id (n.step κ e) events

theorem framesOf_none {e : NetworkEvent} (h : frameOf κ id n e = none)
    (events : List NetworkEvent) :
    framesOf κ id n (e :: events) = framesOf κ id (n.step κ e) events := by
  rw [framesOf, h]
  rfl

theorem framesOf_some {e : NetworkEvent} {message : Message}
    (h : frameOf κ id n e = some message) (events : List NetworkEvent) :
    framesOf κ id n (e :: events) = (n, message) :: framesOf κ id (n.step κ e) events := by
  rw [framesOf, h]
  rfl

theorem repliesOf_none {e : NetworkEvent} (h : frameOf κ id n e = none)
    (events : List NetworkEvent) :
    repliesOf κ id n (e :: events) = repliesOf κ id (n.step κ e) events := by
  rw [repliesOf, h]
  rfl

theorem repliesOf_some {e : NetworkEvent} {message : Message}
    (h : frameOf κ id n e = some message) {sent : List Bytes} {given : List Message}
    (hhandled : Handled id n (n.step κ e) sent given) (events : List NetworkEvent) :
    repliesOf κ id n (e :: events) = sent ++ repliesOf κ id (n.step κ e) events := by
  rw [repliesOf, h, if_pos Option.isSome_some, hhandled.outbound, List.drop_left]

theorem frameOf_absent (hs : n.objects id = none) (e : NetworkEvent) :
    frameOf κ id n e = none := by
  unfold frameOf
  split
  swap
  · rfl
  split_ifs
  · rw [hs]
  · rfl

/-- A session that is there is not created again. -/
theorem steady_present (hn : n.Inv) {s : Session} (hs : n.objects id = some s) {e : NetworkEvent}
    (hframe : frameOf κ id n e = none) : Steady id n (n.step κ e) := by
  rcases grows_step e hframe with hsteady | hborn
  · exact hsteady
  · rw [hn.fresh id (Nat.le_of_eq hborn.new.symm)] at hs
    cases hs

theorem Steady.ready (h : Steady id n n') {s : Session} (hs : n.objects id = some s)
    (hready : s.Ready) (hopen : n'.isOpen id = true) : n'.At id Session.Ready := by
  obtain ⟨s', hs', hbeside⟩ := h.object s hs
  obtain ⟨s'', hs'', hopen'⟩ := isOpen_eq_true.mp hopen
  rw [hs'] at hs''
  cases hs''
  refine ⟨s', hs', ?_, ?_, hopen'⟩
  · rw [hbeside.remoteHello]
    exact hready.1
  · rw [hbeside.handshakeComplete]
    exact hready.2.1

theorem Steady.fresh (h : Steady id n n') {s : Session} (hs : n.objects id = some s)
    (hfresh : s.Fresh) (hopen : n'.isOpen id = true) : n'.At id Session.Fresh := by
  obtain ⟨s', hs', hbeside⟩ := h.object s hs
  obtain ⟨s'', hs'', hopen'⟩ := isOpen_eq_true.mp hopen
  rw [hs'] at hs''
  cases hs''
  exact ⟨s', hs', hbeside.remoteHello.trans hfresh.1, hopen'⟩

/-- After the end nothing comes in. -/
theorem run_spent (events : List NetworkEvent) : ∀ {n : PeerNetwork}, n.Inv →
    n.At id Session.Spent →
    framesOf κ id n events = [] ∧ repliesOf κ id n events = []
      ∧ (n.run κ events).deliveredOn id = n.deliveredOn id ∧ (n.run κ events).isOpen id = false
      ∧ ∀ event ∈ n.emitted, event ∈ (n.run κ events).emitted := by
  induction events with
  | nil =>
      intro n _ ⟨s, hs, hspent⟩
      refine ⟨rfl, rfl, rfl, ?_, fun _ he => he⟩
      show (n.objects id).any _ = false
      rw [hs, Option.any_some, hspent.1]
      rfl
  | cons e events ih =>
      intro n hn ⟨s, hs, hspent⟩
      have hframe := frameOf_spent (κ := κ) hs hspent e
      have hsteady := steady_present hn hs hframe
      obtain ⟨s', hs', hbeside⟩ := hsteady.object s hs
      obtain ⟨hframes, hreplies, hdelivered, hclosed, hemitted⟩ :=
        ih (inv_step κ hn e) ⟨s', hs', hbeside.spent hspent⟩
      exact ⟨(framesOf_none hframe events).trans hframes,
        (repliesOf_none hframe events).trans hreplies, hdelivered.trans hsteady.delivered, hclosed,
        fun event hevent => hemitted event (hsteady.emitted event hevent)⟩

/-! ## After the greeting -/

/-- The frames before another `HELLO`. -/
def admitted (frames : List (PeerNetwork × Message)) : List (PeerNetwork × Message) :=
  frames.takeWhile fun frame => frame.2.1 ≠ .hello

/-- The `PING`s among them. -/
def pings (frames : List (PeerNetwork × Message)) : List (PeerNetwork × Message) :=
  (admitted frames).filter fun frame => frame.2.1 = .ping

/-- The answers to `PING`s, in order. -/
def pongs (κ : Crypto) (frames : List (PeerNetwork × Message)) : List Bytes :=
  frames.map fun frame => pongTo κ frame.1 frame.2

/-- What an open gate does with the frames that come in. -/
structure Admits (κ : Crypto) (id : Nat) (frames : List (PeerNetwork × Message))
    (replies : List Bytes) (given : List Message) (after : PeerNetwork) : Prop where
  /-- The application is given the admitted messages that are not handled inside. -/
  given : given = ((admitted frames).map Prod.snd).filter application
  /-- Another `HELLO` is the last frame. -/
  ended : ∀ frame ∈ frames, frame.2.1 = .hello →
    frames = admitted frames ++ [frame] ∧ after.isOpen id = false
  /-- Every `PING` is answered, except for one that finds the queue full and is the last frame. -/
  answered : replies = pongs κ (pings frames) ∨
    ∃ answered ping, pings frames = answered ++ [ping] ∧ replies = pongs κ answered ∧
      frames.getLast? = some ping ∧ after.isOpen id = false ∧
      .disconnected id .outboundQueueLimitExceeded ∈ after.emitted

section admits
variable {frames : List (PeerNetwork × Message)} {replies : List Bytes} {given : List Message}
  {after : PeerNetwork} {frame : PeerNetwork × Message}

theorem admits_nil : Admits κ id [] [] [] after where
  given := rfl
  ended _ hframe := absurd hframe List.not_mem_nil
  answered := Or.inl rfl

theorem admitted_cons (hne : frame.2.1 ≠ .hello) :
    admitted (frame :: frames) = frame :: admitted frames :=
  List.takeWhile_cons_of_pos (decide_eq_true hne)

theorem pings_cons (hne : frame.2.1 ≠ .hello) :
    pings (frame :: frames) = (if frame.2.1 = .ping then [frame] else []) ++ pings frames := by
  rw [pings, admitted_cons hne]
  split_ifs with hping
  · exact List.filter_cons_of_pos (decide_eq_true hping)
  · exact List.filter_cons_of_neg (by simpa using hping)

variable (frame) in
/-- A frame that the gate handles and goes on. -/
theorem Admits.cons (h : Admits κ id frames replies given after) (hne : frame.2.1 ≠ .hello) :
    Admits κ id (frame :: frames)
      ((if frame.2.1 = .ping then [pongTo κ frame.1 frame.2] else []) ++ replies)
      ((if application frame.2 then [frame.2] else []) ++ given) after where
  given := by
    rw [admitted_cons hne, List.map_cons, List.filter_cons, h.given]
    split_ifs
    · rfl
    · rfl
  ended later hlater htype := by
    rcases List.mem_cons.mp hlater with rfl | hmem
    · exact absurd htype hne
    obtain ⟨hframes, hclosed⟩ := h.ended later hmem htype
    refine ⟨?_, hclosed⟩
    rw [admitted_cons hne, List.cons_append, ← hframes]
  answered := by
    rw [pings_cons hne]
    have hpongs : ∀ l, (if frame.2.1 = .ping then [pongTo κ frame.1 frame.2] else []) ++ pongs κ l
        = pongs κ ((if frame.2.1 = .ping then [frame] else []) ++ l) := by
      intro l
      split_ifs
      · rfl
      · rfl
    rcases h.answered with hreplies | ⟨answered, ping, hpings, hreplies, hlast, hend⟩
    · left
      rw [hreplies, hpongs]
    · right
      refine ⟨(if frame.2.1 = .ping then [frame] else []) ++ answered, ping, ?_, ?_, ?_, hend⟩
      · rw [hpings, List.append_assoc]
      · rw [hreplies, hpongs]
      · exact List.mem_getLast?_cons hlast

theorem admits_hello (htype : frame.2.1 = .hello) (hclosed : after.isOpen id = false) :
    Admits κ id [frame] [] [] after := by
  have hadmitted : admitted [frame] = [] :=
    List.takeWhile_cons_of_neg (by simpa using htype)
  refine ⟨?_, fun later hlater _ => ?_, Or.inl ?_⟩
  · rw [hadmitted]
    rfl
  · rw [List.mem_singleton.mp hlater, hadmitted]
    exact ⟨rfl, hclosed⟩
  · rw [pings, hadmitted]
    rfl

/-- A `PING` that finds the queue full. -/
theorem admits_full (htype : frame.2.1 = .ping) (hclosed : after.isOpen id = false)
    (hemitted : .disconnected id .outboundQueueLimitExceeded ∈ after.emitted) :
    Admits κ id [frame] [] [] after := by
  have hne : frame.2.1 ≠ .hello := by
    rw [htype]
    exact nofun
  have hnot : application frame.2 = false := by
    rw [application, htype]
    rfl
  have hpings : pings [frame] = [frame] := by
    rw [pings_cons hne, if_pos htype]
    rfl
  refine ⟨?_, fun later hlater hhello => ?_,
    Or.inr ⟨[], frame, hpings, rfl, rfl, hclosed, hemitted⟩⟩
  · rw [admitted_cons hne]
    show [] = List.filter application [frame.2]
    rw [List.filter_singleton, hnot]
    rfl
  · rw [List.mem_singleton.mp hlater] at hhello
    exact absurd hhello hne

end admits

/-- A run of an open gate. -/
theorem run_ready (events : List NetworkEvent) : ∀ {n : PeerNetwork}, n.Inv →
    n.At id Session.Ready → Along (step κ) (Unstopped κ id) n events →
    ∃ given, (n.run κ events).deliveredOn id = n.deliveredOn id ++ given ∧
      Admits κ id (framesOf κ id n events) (repliesOf κ id n events) given (n.run κ events) := by
  induction events with
  | nil =>
      intro n _ _ _
      exact ⟨[], (List.append_nil _).symm, admits_nil⟩
  | cons e events ih =>
      intro n hn ⟨s, hs, hready⟩ halong
      have hinv := inv_step κ hn e
      cases hframe : frameOf κ id n e with
      | none =>
          have hsteady := steady_present hn hs hframe
          have hopen : (n.step κ e).isOpen id = true :=
            halong.1 hframe (isOpen_eq_true.mpr ⟨s, hs, hready.2.2⟩)
          obtain ⟨given, hdelivered, hadmits⟩ := ih hinv (hsteady.ready hs hready hopen) halong.2
          rw [framesOf_none hframe, repliesOf_none hframe]
          exact ⟨given, hdelivered.trans (by rw [hsteady.delivered]), hadmits⟩
      | some message =>
          rw [framesOf_some hframe]
          -- the frames after which the gate stays open, and those after which it is closed
          have hpass : ∀ {sent given}, Handled id n (n.step κ e) sent given →
              (n.step κ e).At id Session.Ready → message.1 ≠ .hello →
              sent = (if message.1 = .ping then [pongTo κ n message] else []) →
              given = (if application message then [message] else []) →
              ∃ given, (n.run κ (e :: events)).deliveredOn id = n.deliveredOn id ++ given ∧
                Admits κ id ((n, message) :: framesOf κ id (n.step κ e) events)
                  (repliesOf κ id n (e :: events)) given (n.run κ (e :: events)) := by
            intro sent given hhandled hready' hne hsent hgiven
            obtain ⟨later, hdelivered, hadmits⟩ := ih hinv hready' halong.2
            refine ⟨given ++ later, ?_, ?_⟩
            · refine hdelivered.trans ?_
              rw [hhandled.delivered, List.append_assoc]
            · rw [repliesOf_some hframe hhandled, hsent, hgiven]
              exact hadmits.cons (n, message) hne
          have hclose : Handled id n (n.step κ e) [] [] → (n.step κ e).At id Session.Spent →
              ((n.run κ (e :: events)).isOpen id = false →
                (∀ event ∈ (n.step κ e).emitted, event ∈ (n.run κ (e :: events)).emitted) →
                Admits κ id [(n, message)] [] [] (n.run κ (e :: events))) →
              ∃ given, (n.run κ (e :: events)).deliveredOn id = n.deliveredOn id ++ given ∧
                Admits κ id ((n, message) :: framesOf κ id (n.step κ e) events)
                  (repliesOf κ id n (e :: events)) given (n.run κ (e :: events)) := by
            intro hhandled hspent hadmits
            obtain ⟨hframes, hreplies, hdelivered, hclosed, hemitted⟩ :=
              run_spent (κ := κ) events hinv hspent
            refine ⟨[], hdelivered.trans hhandled.delivered, ?_⟩
            rw [repliesOf_some hframe hhandled, hframes, hreplies]
            exact hadmits hclosed hemitted
          by_cases hhello : message.1 = .hello
          · obtain ⟨hhandled, hspent⟩ := frame_hello hs hframe hready hhello
            exact hclose hhandled hspent fun hclosed _ => admits_hello hhello hclosed
          by_cases hping : message.1 = .ping
          · rcases frame_ping hs hframe hready hping with
              ⟨hhandled, hready'⟩ | ⟨hhandled, hspent, hlimit⟩
            · refine hpass hhandled hready' hhello (if_pos hping).symm ?_
              rw [application, hping]
              rfl
            · exact hclose hhandled hspent fun hclosed hemitted =>
                admits_full hping hclosed (hemitted _ hlimit)
          by_cases hpong : message.1 = .pong
          · obtain ⟨hhandled, hready'⟩ := frame_pong hs hframe hready hpong
            refine hpass hhandled hready' hhello (if_neg hping).symm ?_
            rw [application, hpong]
            rfl
          · have happlication : application message = true :=
              decide_eq_true ⟨hhello, hping, hpong⟩
            obtain ⟨hhandled, hready'⟩ := frame_application hs hframe hready happlication
            exact hpass hhandled hready' hhello (if_neg hping).symm (if_pos happlication).symm

/-! ## The whole life of a session -/

/-- What the gate of a session does with all frames that come in on it. -/
structure Gated (κ : Crypto) (id : Nat) (frames : List (PeerNetwork × Message))
    (replies : List Bytes) (given : List Message) (after : PeerNetwork) : Prop where
  silent : frames = [] → given = [] ∧ replies = []
  refused : ∀ first rest, frames = first :: rest →
    (¬ ∃ hello, first.1.Acceptable id first.2 hello) →
    rest = [] ∧ after.isOpen id = false ∧ given = [] ∧ replies = []
  opened : ∀ first rest, frames = first :: rest →
    (∃ hello, first.1.Acceptable id first.2 hello) → Admits κ id rest replies given after

theorem gated_nil {after : PeerNetwork} : Gated κ id [] [] [] after where
  silent _ := ⟨rfl, rfl⟩
  refused _ _ h := by cases h
  opened _ _ h := by cases h

theorem run_fresh (events : List NetworkEvent) : ∀ {n : PeerNetwork}, n.Inv →
    n.At id Session.Fresh → Along (step κ) (Unstopped κ id) n events →
    ∃ given, (n.run κ events).deliveredOn id = n.deliveredOn id ++ given ∧
      Gated κ id (framesOf κ id n events) (repliesOf κ id n events) given (n.run κ events) := by
  induction events with
  | nil =>
      intro n _ _ _
      exact ⟨[], (List.append_nil _).symm, gated_nil⟩
  | cons e events ih =>
      intro n hn ⟨s, hs, hfresh⟩ halong
      have hinv := inv_step κ hn e
      cases hframe : frameOf κ id n e with
      | none =>
          have hsteady := steady_present hn hs hframe
          have hopen : (n.step κ e).isOpen id = true :=
            halong.1 hframe (isOpen_eq_true.mpr ⟨s, hs, hfresh.2⟩)
          obtain ⟨given, hdelivered, hgated⟩ := ih hinv (hsteady.fresh hs hfresh hopen) halong.2
          rw [framesOf_none hframe, repliesOf_none hframe]
          exact ⟨given, hdelivered.trans (by rw [hsteady.delivered]), hgated⟩
      | some message =>
          rw [framesOf_some hframe]
          by_cases haccept : ∃ hello, n.Acceptable id message hello
          · obtain ⟨hello, hacceptable⟩ := haccept
            obtain ⟨hhandled, hready⟩ := frame_admitted hs hframe hfresh hacceptable
            obtain ⟨given, hdelivered, hadmits⟩ := run_ready events hinv hready halong.2
            refine ⟨given, hdelivered.trans (by rw [hhandled.delivered, List.append_nil]), ?_⟩
            rw [repliesOf_some hframe hhandled]
            refine ⟨nofun, fun first rest heq hnot => ?_, fun first rest heq _ => ?_⟩
            · cases heq
              exact absurd ⟨hello, hacceptable⟩ hnot
            · cases heq
              exact hadmits
          · obtain ⟨hhandled, hspent⟩ :=
              frame_refused hs hframe hfresh fun hello h => haccept ⟨hello, h⟩
            obtain ⟨hframes, hreplies, hdelivered, hclosed, -⟩ :=
              run_spent (κ := κ) events hinv hspent
            refine ⟨[], hdelivered.trans hhandled.delivered, ?_⟩
            rw [repliesOf_some hframe hhandled, hframes, hreplies]
            refine ⟨nofun, fun first rest heq _ => ?_, fun first rest heq hyes => ?_⟩
            · cases heq
              exact ⟨rfl, hclosed, rfl, rfl⟩
            · cases heq
              exact absurd hyes haccept

theorem run_absent (events : List NetworkEvent) : ∀ {n : PeerNetwork}, n.Inv →
    n.objects id = none → Along (step κ) (Unstopped κ id) n events →
    ∃ given, (n.run κ events).deliveredOn id = n.deliveredOn id ++ given ∧
      Gated κ id (framesOf κ id n events) (repliesOf κ id n events) given (n.run κ events) := by
  induction events with
  | nil =>
      intro n _ _ _
      exact ⟨[], (List.append_nil _).symm, gated_nil⟩
  | cons e events ih =>
      intro n hn hs halong
      have hinv := inv_step κ hn e
      have hframe := frameOf_absent (κ := κ) hs e
      rw [framesOf_none hframe, repliesOf_none hframe]
      rcases grows_step e hframe with hsteady | hborn
      · rw [← hsteady.delivered]
        exact ih hinv (hsteady.absent hs) halong.2
      rw [← hborn.delivered]
      obtain ⟨s, hs', hfresh | hspent⟩ := hborn.object
      · exact run_fresh events hinv ⟨s, hs', hfresh⟩ halong.2
      · obtain ⟨hframes, hreplies, hdelivered, -⟩ := run_spent (κ := κ) events hinv ⟨s, hs', hspent⟩
        rw [hframes, hreplies]
        exact ⟨[], hdelivered.trans (List.append_nil _).symm, gated_nil⟩

/-- In every run of the network, a session that no other event stops lets through to the
application exactly the messages behind an acceptable `HELLO`, up to the first violation,
that are not `HELLO`, `PING` or `PONG`; what violates the protocol is the last frame that
comes in; and the `PING`s are answered in order. -/
theorem session_gated (κ : Crypto) (config : PeerNetworkConfig) (sessionNonce : FixedBytes 16)
    (events : List NetworkEvent) (id : Nat)
    (halone : Along (step κ) (Unstopped κ id) (start config sessionNonce) events) :
    Gated κ id (framesOf κ id (start config sessionNonce) events)
      (repliesOf κ id (start config sessionNonce) events)
      (((start config sessionNonce).run κ events).deliveredOn id)
      ((start config sessionNonce).run κ events) := by
  obtain ⟨given, hdelivered, hgated⟩ :=
    run_absent events (inv_start config sessionNonce) rfl halone
  have hgiven : ((start config sessionNonce).run κ events).deliveredOn id = given := hdelivered
  rw [hgiven]
  exact hgated

/-- A frame as it is read from the socket of the first session. -/
def frameEvents (type : MessageType) (payload : Bytes) : List NetworkEvent :=
  let bytes := serializeFrame reference regtestConfig.chainId type payload
  [.headerRead 1 (some (bytes.take frameHeaderSize)),
    .payloadRead 1 (some (bytes.drop frameHeaderSize))]

/-- A peer presents itself, pings, asks for a template and presents itself again. -/
def visit : List NetworkEvent :=
  let hello := serializeHello (start regtestConfig (List.Vector.replicate 16 2)).localHello
  [.accepted (some none)] ++ frameEvents .hello hello ++ frameEvents .ping (serializePingNonce 7)
    ++ frameEvents .templateRequest (List.replicate 40 0) ++ frameEvents .hello hello

/-- The template request goes through; the second `HELLO` ends the session. -/
theorem session_gated_visit :
    let n := start regtestConfig (List.Vector.replicate 16 1)
    ((framesOf reference 1 n visit).map fun frame => frame.2.1)
        = [.hello, .ping, .templateRequest, .hello] ∧
      (n.run reference visit).deliveredOn 1 = [(.templateRequest, List.replicate 40 0)] ∧
      (n.run reference visit).isOpen 1 = false ∧
      Gated reference 1 (framesOf reference 1 n visit) (repliesOf reference 1 n visit)
        ((n.run reference visit).deliveredOn 1) (n.run reference visit) := by
  intro n
  have hfacts : Along (step reference) (Unstopped reference 1) n visit ∧
      ((framesOf reference 1 n visit).map fun frame => frame.2.1)
        = [.hello, .ping, .templateRequest, .hello] ∧
      (n.run reference visit).deliveredOn 1 = [(.templateRequest, List.replicate 40 0)] ∧
      (n.run reference visit).isOpen 1 = false := by
    decide +kernel
  exact ⟨hfacts.2.1, hfacts.2.2.1, hfacts.2.2.2,
    session_gated reference regtestConfig (List.Vector.replicate 16 1) visit 1 hfacts.1⟩

end PeerNetwork

end BBC
