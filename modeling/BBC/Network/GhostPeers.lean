/-
# `BBC.Network.GhostPeers` — the status table and the open sessions

`peers()` is what synchronization, mining and the wallet choose their peers from, so
`peer_status_` should name open sessions only.  Three handlers break this:

* the payload of a `HELLO` that was read before its session was stopped still
  completes the handshake of the stopped session;
* so does a `PONG` that answers the last ping, which records the session again;
* the shutdown clears `sessions_` and leaves `peer_status_`.

`revives` is the condition on a state and a handler under which one of them happens;
in every run without it the table names open sessions only.
-/
import BBC.Network.Sessions
import BBC.Crypto.Reference

namespace BBC

namespace PeerNetwork

variable {κ : Crypto} {n n' n'' : PeerNetwork} {id other : Nat}

/-- The session that a handler belongs to. -/
def NetworkEvent.session : NetworkEvent → Option Nat
  | .headerRead id _ | .payloadRead id _ | .written id _ | .handshakeTimer id | .idleTimer id
  | .pongTimer id _ | .sendMessage id _ _ => some id
  | _ => none

/-- How often the completion of the handshake of a session has been reported. -/
def completions (n : PeerNetwork) (id : Nat) : Nat := n.emitted.count (.handshakeComplete id)

/-- No session with the nonce, or one that the candidate replaces. -/
def prevails (n : PeerNetwork) (id : Nat) (nonce : FixedBytes 16) : Bool :=
  match n.duplicateOf id nonce with
  | none => true
  | some other => n.directed id (n.preferred nonce) ∧ ¬ n.directed other (n.preferred nonce)

/-- A first `HELLO` that passes every check. -/
def completes (n : PeerNetwork) (id : Nat) (s : Session) (type : MessageType) (payload : Bytes) :
    Bool :=
  match n.checkHello payload with
  | .error _ => false
  | .ok hello => s.remoteHello.isNone ∧ type = .hello ∧ n.prevails id hello.sessionNonce

/-- A `PONG` that answers the last ping. -/
def answers (s : Session) (type : MessageType) (payload : Bytes) : Bool :=
  s.remoteHello.isSome ∧ s.handshakeComplete ∧ type = .pong
    ∧ s.lastPingNonce = some (deserializePingNonce payload)

/-- The handler puts an id into `peer_status_`, or leaves one there, that is not in
`sessions_`. -/
def revives (κ : Crypto) (n : PeerNetwork) : NetworkEvent → Bool
  | .payloadRead id (some payload) =>
      (n.objects id).any fun s =>
        match s.reading with
        | .payload header =>
            s.stopped ∧ readable s header.payloadLength.toNat (some payload)
              ∧ validateFramePayload κ header payload = .none
              ∧ (n.completes id s header.type payload ∨ answers s header.type payload)
        | _ => false
  | .shutdown => n.peerStatus ≠ []
  | _ => false

/-! ## Handlers of a stopped session -/

/-- No session is stopped and no handshake is reported. -/
structure Mute (n n' : PeerNetwork) : Prop where
  isOpen : ∀ id, n'.isOpen id = n.isOpen id
  completions : ∀ id, n'.completions id = n.completions id

theorem Mute.trans (h : Mute n n') (h' : Mute n' n'') : Mute n n'' :=
  ⟨fun id => (h'.isOpen id).trans (h.isOpen id),
    fun id => (h'.completions id).trans (h.completions id)⟩

theorem Mute.refl (n : PeerNetwork) : Mute n n := ⟨fun _ => rfl, fun _ => rfl⟩

theorem mute_modifySession (n : PeerNetwork) (id : Nat) {f : Session → Session}
    (hf : Session.Inner f) : Mute n (n.modifySession id f) :=
  ⟨fun _ => isOpen_modifySession hf, fun _ => rfl⟩

theorem mute_stop (h : n.isOpen id = false) (reason : StopReason) (notifyOwner reconnect : Bool) :
    Mute n (n.stop id reason notifyOwner reconnect) := by
  rw [stop_of_not_open h]
  exact .refl n

theorem mute_emit {event : PeerEvent} (h : ∀ id, event ≠ .handshakeComplete id) :
    Mute n (n.emit event) := by
  refine ⟨fun _ => rfl, fun id => ?_⟩
  rw [completions, completions, emit, List.count_append, List.count_singleton,
    if_neg (by simpa using h id), Nat.add_zero]

theorem mute_recordStatus (n : PeerNetwork) (id : Nat) : Mute n (n.recordStatus id) := by
  rw [recordStatus]
  cases n.objects id with
  | none => exact .refl n
  | some s => exact ⟨fun _ => rfl, fun _ => rfl⟩

theorem mute_send (h : n.isOpen id = false) (type : MessageType) (payload : Bytes) :
    Mute n (n.send κ id type payload) := by
  rw [send]
  split_ifs
  · exact mute_stop h _ _ _
  · exact mute_modifySession n id (Session.inner_queue _)

theorem mute_headerRead (h : n.isOpen id = false) (result : Option Bytes) :
    Mute n (n.headerRead id result) := by
  have hend := mute_modifySession n id Session.inner_endRead
  have hclosed := (hend.isOpen id).trans h
  cases result with
  | none => exact hend.trans (mute_stop hclosed _ _ _)
  | some bytes =>
      rw [headerRead]
      cases deserializeFrameHeader n.config.chainId bytes with
      | error e => exact hend.trans (mute_stop hclosed _ _ _)
      | ok header => exact hend.trans (mute_modifySession _ id (Session.inner_startRead _))

theorem mute_written (h : n.isOpen id = false) (ok : Bool) : Mute n (n.written id ok) := by
  have hend := mute_modifySession n id Session.inner_endWrite
  rw [written]
  split_ifs
  · exact hend.trans (mute_modifySession _ id Session.inner_dequeue)
  · exact hend.trans (mute_stop ((hend.isOpen id).trans h) _ _ _)

theorem isReady_of_not_open (h : n.isOpen id = false) : n.isReady id = false := by
  rw [← Bool.not_eq_true]
  intro hready
  rw [isOpen_of_isReady hready] at h
  cases h

theorem mute_handlePong (n : PeerNetwork) (id : Nat) (s : Session) (nonce : UInt64) :
    Mute n (n.handlePong id s nonce) := by
  have hmatch : Mute n (n.matchPong id s nonce) := by
    rw [matchPong]
    split_ifs
    · refine Mute.trans (mute_modifySession n id (Session.inner_ponged nonce)) ?_
      exact (mute_recordStatus _ id).trans (mute_emit fun _ h => by cases h)
    · exact mute_emit fun _ h => by cases h
  rw [handlePong]
  split_ifs
  · exact hmatch.trans (mute_modifySession _ id (Session.inner_watch none))
  · exact hmatch

/-! ## The `HELLO` of a stopped session -/

theorem prevails_modifySession {f : Session → Session} (hf : ∀ s, (f s).direction = s.direction)
    (nonce : FixedBytes 16) : (n.modifySession id f).prevails id nonce = n.prevails id nonce := by
  rw [prevails, prevails, duplicateOf_modifySession]
  cases n.duplicateOf id nonce with
  | none => rfl
  | some other =>
      dsimp only
      rw [directed_modifySession hf, directed_modifySession hf]
      rfl

theorem prevails_greet (n : PeerNetwork) (id : Nat) (hello : HelloPayload)
    (nonce : FixedBytes 16) : (n.greet id hello).prevails id nonce = n.prevails id nonce :=
  prevails_modifySession (f := Session.greet hello) (fun _ => rfl) nonce

/-- `complete_handshake` succeeds exactly for a candidate that prevails. -/
theorem completeHandshake_snd (n : PeerNetwork) (id : Nat) (nonce : FixedBytes 16) :
    (n.completeHandshake id nonce).2 = n.prevails id nonce := by
  rw [completeHandshake, prevails]
  cases n.duplicateOf id nonce with
  | none => rfl
  | some other =>
      dsimp only
      split_ifs with h
      · exact (decide_eq_true h).symm
      · exact (decide_eq_false h).symm

/-- A candidate that does not prevail gives way. -/
theorem completeHandshake_of_not_prevails {nonce : FixedBytes 16}
    (h : n.prevails id nonce = false) :
    ∃ other, (n.completeHandshake id nonce).1 = n.yieldTo id other := by
  rw [prevails] at h
  rw [completeHandshake]
  cases hdup : n.duplicateOf id nonce with
  | none => rw [hdup] at h; cases h
  | some other =>
      rw [hdup] at h
      dsimp only at h ⊢
      rw [if_neg (of_decide_eq_false h)]
      exact ⟨other, rfl⟩

theorem mute_adoptTarget (n : PeerNetwork) (id : Nat) (target : Option Nat) :
    Mute n (n.adoptTarget id target) := by
  refine ⟨fun other => isOpen_adoptTarget n id target other, fun other => ?_⟩
  cases target with
  | none => rfl
  | some t => rfl

theorem mute_yieldTo (h : n.isOpen id = false) (other : Nat) : Mute n (n.yieldTo id other) := by
  rw [yieldTo]
  split_ifs
  · have hadopt := mute_adoptTarget n other (n.targetOf id)
    exact hadopt.trans (mute_stop ((hadopt.isOpen id).trans h) _ _ _)
  · exact mute_stop h _ _ _

/-- The `HELLO` of a stopped session that does not prevail has no effect on others. -/
theorem mute_handleHello (hclosed : n.isOpen id = false) {payload : Bytes}
    (h : ∀ hello, n.checkHello payload = .ok hello → n.prevails id hello.sessionNonce = false) :
    Mute n (n.handleHello id payload).1 := by
  rw [handleHello]
  cases hcheck : n.checkHello payload with
  | error reason => exact mute_stop hclosed _ _ _
  | ok hello =>
      have hgreet : Mute n (n.greet id hello) :=
        ⟨fun other => isOpen_greet n id hello other, fun _ => rfl⟩
      have hloses := (prevails_greet n id hello _).trans (h hello hcheck)
      obtain ⟨other, hyield⟩ := completeHandshake_of_not_prevails hloses
      dsimp only
      rw [completeHandshake_snd, hloses, hyield]
      exact hgreet.trans (mute_yieldTo ((hgreet.isOpen id).trans hclosed) other)

/-! ## The status table -/

/-- A candidate that completes its handshake is as open as it was. -/
theorem isOpen_completeHandshake (hn : n.Listed) {nonce : FixedBytes 16}
    (h : (n.completeHandshake id nonce).2 = true) :
    (n.completeHandshake id nonce).1.isOpen id = n.isOpen id := by
  rw [completeHandshake] at h ⊢
  cases hdup : n.duplicateOf id nonce with
  | none => exact isOpen_resetDelay n id id
  | some other =>
      rw [hdup] at h
      dsimp only at h ⊢
      have hne := (duplicateOf_eq_some hn hdup).1
      split_ifs at h ⊢
      rw [isOpen_resetDelay, isOpen_replace]
      simp [hne.symm]

theorem recorded_handleHello (hn : n.Listed) (hr : n.Recorded) {payload : Bytes}
    (h : n.isOpen id = true ∨
      ∀ hello, n.checkHello payload = .ok hello → n.prevails id hello.sessionNonce = false) :
    (n.handleHello id payload).1.Recorded := by
  rw [handleHello]
  cases hcheck : n.checkHello payload with
  | error reason => exact (quiet_stop n id reason true).recorded hn hr
  | ok hello =>
      have hlisted : (n.greet id hello).Listed := listed_greet hn hello
      have hquiet := quiet_completeHandshake (n.greet id hello) id hello.sessionNonce
      have hdone := hquiet.recorded hlisted hr
      dsimp only
      split_ifs with htrue
      · refine (quiet_welcome ?_).recorded (hquiet.listed hlisted) hdone
        rw [isOpen_completeHandshake hlisted htrue, isOpen_greet]
        refine h.resolve_right fun hloses => ?_
        rw [completeHandshake_snd, prevails_greet, hloses hello hcheck] at htrue
        cases htrue
      · exact hdone

/-- What `revives` excludes, for the message of one session. -/
def Harmless (n : PeerNetwork) (id : Nat) (s : Session) (type : MessageType) (payload : Bytes) :
    Prop :=
  n.completes id s type payload = false ∧ answers s type payload = false

/-- A first `HELLO` that is harmless does not prevail. -/
theorem Harmless.not_prevails {s : Session} {type : MessageType} {payload : Bytes}
    (h : Harmless n id s type payload) (hnone : s.remoteHello.isNone = true)
    (htype : type = .hello) :
    ∀ hello, n.checkHello payload = .ok hello → n.prevails id hello.sessionNonce = false := by
  intro hello hcheck
  have hfirst := h.1
  rw [completes, hcheck] at hfirst
  rw [← Bool.not_eq_true]
  intro hprevails
  exact of_decide_eq_false hfirst ⟨hnone, htype, hprevails⟩

/-- A `PONG` that is harmless does not answer the last ping. -/
theorem Harmless.not_answers {s : Session} {payload : Bytes} (h : Harmless n id s .pong payload)
    (hsome : ¬ s.remoteHello.isNone = true) (hdone : s.handshakeComplete = true) :
    s.lastPingNonce ≠ some (deserializePingNonce payload) := by
  intro hlast
  refine of_decide_eq_false h.2 ⟨?_, hdone, rfl, hlast⟩
  rw [Option.isSome_iff_ne_none]
  exact fun hnone => hsome (Option.isNone_iff_eq_none.mpr hnone)

theorem recorded_handleMessage (κ : Crypto) (hn : n.Listed) (hr : n.Recorded) {s : Session}
    {type : MessageType} {payload : Bytes}
    (h : n.isOpen id = true ∨ Harmless n id s type payload) :
    (n.handleMessage κ id s type payload).1.Recorded := by
  rw [handleMessage]
  split_ifs with hnone htype hhello hdone hping hpong
  · exact (quiet_stop n id _ true).recorded hn hr
  · exact recorded_handleHello hn hr (h.imp_right fun h => h.not_prevails hnone (not_not.mp htype))
  · exact (quiet_stop n id _ true).recorded hn hr
  · exact (quiet_send κ n id _ _).recorded hn hr
  · subst hpong
    exact (quiet_handlePong (h.imp_right fun h => h.not_answers hnone hdone)).recorded hn hr
  · exact (quiet_deliver n id type payload).recorded hn hr
  · exact (quiet_stop n id _ true).recorded hn hr

theorem mute_handleMessage (κ : Crypto) (hclosed : n.isOpen id = false) {s : Session}
    {type : MessageType} {payload : Bytes} (h : Harmless n id s type payload) :
    Mute n (n.handleMessage κ id s type payload).1 := by
  rw [handleMessage]
  split_ifs with hnone htype hhello hdone hping hpong
  · exact mute_stop hclosed _ _ _
  · exact mute_handleHello hclosed (h.not_prevails hnone (not_not.mp htype))
  · exact mute_stop hclosed _ _ _
  · exact mute_send hclosed _ _
  · exact mute_handlePong n id s _
  · exact ⟨fun _ => rfl, fun _ => rfl⟩
  · exact mute_stop hclosed _ _ _

/-! ## Every handler -/

theorem harmless_endRead {s : Session} {type : MessageType} {payload : Bytes}
    (h : Harmless n id s type payload) :
    Harmless (n.modifySession id Session.endRead) id s type payload := by
  refine ⟨?_, h.2⟩
  have hfirst := h.1
  rw [completes] at hfirst ⊢
  have hcheck : (n.modifySession id Session.endRead).checkHello payload =
    n.checkHello payload := rfl
  rw [hcheck]
  cases hc : n.checkHello payload with
  | error reason => rfl
  | ok hello =>
      rw [hc] at hfirst
      dsimp only at hfirst ⊢
      rw [prevails_modifySession (f := Session.endRead) fun _ => rfl]
      exact hfirst

/-- The payload handler of an open session, or of a stopped one with a harmless message. -/
theorem recorded_payloadRead (κ : Crypto) (hn : n.Listed) (hr : n.Recorded) {s : Session}
    {header : FrameHeader} {result : Option Bytes}
    (h : n.isOpen id = true ∨ ∀ payload, result = some payload →
      validateFramePayload κ header payload = .none → Harmless n id s header.type payload) :
    (n.payloadRead κ id s header result).Recorded := by
  have hend := quiet_modifySession n id Session.inner_endRead
  have hlisted := hend.listed hn
  have hrecorded := hend.recorded hn hr
  cases result with
  | none => exact (quiet_stop _ id _ true).recorded hlisted hrecorded
  | some payload =>
      rw [payloadRead]
      dsimp only
      by_cases hvalid : validateFramePayload κ header payload = .none
      swap
      · rw [if_pos hvalid]
        exact (quiet_stop _ id _ true).recorded hlisted hrecorded
      rw [if_neg (not_not.mpr hvalid)]
      have hcase : (n.modifySession id Session.endRead).isOpen id = true ∨
          Harmless (n.modifySession id Session.endRead) id s header.type payload := by
        rw [isOpen_modifySession Session.inner_endRead]
        exact h.imp_right fun h => harmless_endRead (h payload rfl hvalid)
      have hmessage := recorded_handleMessage κ hlisted hrecorded hcase
      split_ifs
      · exact hmessage
      · exact hmessage

theorem mute_payloadRead (κ : Crypto) (hclosed : n.isOpen id = false) {s : Session}
    {header : FrameHeader} {result : Option Bytes}
    (h : ∀ payload, result = some payload → validateFramePayload κ header payload = .none →
      Harmless n id s header.type payload) :
    Mute n (n.payloadRead κ id s header result) := by
  have hend := mute_modifySession n id Session.inner_endRead
  have hstill := (hend.isOpen id).trans hclosed
  cases result with
  | none => exact hend.trans (mute_stop hstill _ _ _)
  | some payload =>
      rw [payloadRead]
      dsimp only
      by_cases hvalid : validateFramePayload κ header payload = .none
      swap
      · rw [if_pos hvalid]
        exact hend.trans (mute_stop hstill _ _ _)
      rw [if_neg (not_not.mpr hvalid)]
      have hmessage := hend.trans
        (mute_handleMessage κ hstill (harmless_endRead (h payload rfl hvalid)))
      split_ifs
      · exact hmessage.trans (mute_modifySession _ id (Session.inner_startRead _))
      · exact hmessage

/-- What a payload handler that revives nothing has to offer. -/
theorem harmless_of_not_revives {s : Session} {header : FrameHeader} {result : Option Bytes}
    (h : n.revives κ (.payloadRead id result) = false) (hs : n.objects id = some s)
    (hreading : s.reading = .payload header)
    (hread : readable s header.payloadLength.toNat result = true) :
    n.isOpen id = true ∨ ∀ payload, result = some payload →
      validateFramePayload κ header payload = .none → Harmless n id s header.type payload := by
  cases hstopped : s.stopped with
  | false => exact Or.inl (isOpen_eq_true.mpr ⟨s, hs, hstopped⟩)
  | true =>
      refine Or.inr ?_
      rintro payload rfl hvalid
      rw [revives, hs, Option.any_some, hreading] at h
      have hno := of_decide_eq_false h
      refine ⟨?_, ?_⟩
      · rw [← Bool.not_eq_true]
        exact fun hyes => hno ⟨hstopped, hread, hvalid, Or.inl hyes⟩
      · rw [← Bool.not_eq_true]
        exact fun hyes => hno ⟨hstopped, hread, hvalid, Or.inr hyes⟩

theorem not_open_of_stopped {s : Session} (hs : n.objects id = some s) (h : s.stopped = true) :
    n.isOpen id = false := by
  rw [isOpen, hs]
  simp [h]

theorem peerStatus_stopAll (ids : List Nat) :
    ∀ n : PeerNetwork, (n.stopAll ids).peerStatus = n.peerStatus := by
  induction ids with
  | nil => intro n; rfl
  | cons first ids ih =>
      intro n
      rw [stopAll_cons, ih, stop_unnotified]
      split_ifs
      · rfl
      · rfl

/-- Every handler that revives nothing keeps the table. -/
theorem recorded_step (hn : n.Inv) (hr : n.Recorded) {e : NetworkEvent}
    (h : n.revives κ e = false) : (n.step κ e).Recorded := by
  have hquiet : ∀ {n'}, Quiet n n' → n'.Recorded := fun hq => hq.recorded hn.listed hr
  cases e with
  | accepted result =>
      rw [step]
      split_ifs
      · have hidle : { n with accepting := false }.Inv := hn.of_eq rfl rfl rfl
        obtain ⟨hkept, hrec⟩ := keeps_openAccepted κ hidle result
        exact (quiet_acceptNext _).recorded hkept.inv.listed (hrec hr)
      · exact hr
  | acceptRetry =>
      rw [step]
      split_ifs
      · have hidle : { n with acceptRetryArmed := false }.Inv := hn.of_eq rfl rfl rfl
        exact (quiet_acceptNext _).recorded hidle.listed hr
      · exact hr
  | connected t result =>
      rw [step]
      cases n.targetObjects t with
      | none => exact hr
      | some target =>
          dsimp only
          split_ifs
          · exact (keeps_connected κ hn t target result).2 hr
          · exact hr
  | reconnectTimer t =>
      rw [step]
      split_ifs
      · exact hquiet ((quiet_modifyTarget n t _).trans (quiet_beginConnect _ t))
      · exact hr
  | headerRead id result =>
      rw [step]
      cases n.objects id with
      | none => exact hr
      | some s =>
          dsimp only
          split_ifs
          · exact hquiet (quiet_headerRead n id result)
          · exact hr
  | payloadRead id result =>
      rw [step]
      cases hs : n.objects id with
      | none => exact hr
      | some s =>
          dsimp only
          cases hreading : s.reading with
          | nothing => exact hr
          | header => exact hr
          | payload header =>
              dsimp only
              split_ifs with hread
              · exact recorded_payloadRead κ hn.listed hr
                  (harmless_of_not_revives h hs hreading hread)
              · exact hr
  | written id ok =>
      rw [step]
      split_ifs
      · exact hquiet (quiet_written n id ok)
      · exact hr
  | handshakeTimer id => exact hquiet (quiet_handshakeTimer n id)
  | idleTimer id => exact hquiet (quiet_idleTimer κ n id)
  | pongTimer id nonce => exact hquiet (quiet_pongTimer n id nonce)
  | connect address port =>
      rw [step]
      cases n.checkEndpoint address port with
      | none => exact hr
      | some endpoint => exact hquiet (quiet_addTarget n endpoint)
  | disconnect address port =>
      rw [step]
      cases n.checkEndpoint address port with
      | none => exact hr
      | some endpoint => exact hquiet (quiet_removeTarget n endpoint)
  | reservePing => exact hr
  | pingAll nonce =>
      refine (eachSession_invariant (I := fun m => m.Listed ∧ m.Recorded) (fun m id hm => ?_)
        (fun m hm => hm) n.sessions ⟨hn.listed, hr⟩).2
      have hping := quiet_sendPing κ m id nonce
      exact ⟨hping.listed hm.1, hping.recorded hm.1 hm.2⟩
  | updateTip height tip => exact hr
  | sendMessage id type payload =>
      rw [step]
      split_ifs
      · exact hquiet (quiet_sendMessage κ n id type payload)
      · exact hr
  | broadcast type payload excludedPeer =>
      refine (eachSession_invariant (I := fun m => m.Listed ∧ m.Recorded) (fun m id hm => ?_)
        (fun m hm => hm) n.sessions ⟨hn.listed, hr⟩).2
      split_ifs
      · exact hm
      · have hsend := quiet_sendMessage κ m id type payload
        exact ⟨hsend.listed hm.1, hsend.recorded hm.1 hm.2⟩
  | shutdown =>
      -- nothing was recorded, and the shutdown records nothing
      have hempty : n.peerStatus = [] := not_not.mp (of_decide_eq_false h)
      have hdone : ∀ (entries : List (Endpoint × Nat)) (n : PeerNetwork), n.peerStatus = [] →
          (entries.foldl (fun n entry => n.modifyTarget entry.2 Target.disable) n).peerStatus
            = [] := by
        intro entries
        induction entries with
        | nil => intro n h; exact h
        | cons entry entries ih => intro n h; exact ih _ h
      intro entry hentry
      have hnone : (n.step κ .shutdown).peerStatus = [] :=
        hdone n.targets _ ((peerStatus_stopAll n.sessions _).trans hempty)
      rw [hnone] at hentry
      exact absurd hentry List.not_mem_nil

/-- The handlers of a stopped session change no other session. -/
theorem mute_step {s : Session} (hs : n.objects id = some s) (hstopped : s.stopped = true)
    {e : NetworkEvent} (hsession : e.session = some id) (h : n.revives κ e = false) :
    Mute n (n.step κ e) := by
  have hclosed := not_open_of_stopped hs hstopped
  cases e with
  | headerRead id' result =>
      cases hsession
      rw [step, hs]
      dsimp only
      split_ifs
      · exact mute_headerRead hclosed result
      · exact .refl n
  | payloadRead id' result =>
      cases hsession
      rw [step, hs]
      dsimp only
      cases hreading : s.reading with
      | nothing => exact .refl n
      | header => exact .refl n
      | payload header =>
          dsimp only
          split_ifs with hread
          · refine mute_payloadRead κ hclosed ?_
            refine (harmless_of_not_revives h hs hreading hread).resolve_left ?_
            rw [hclosed]
            exact Bool.false_ne_true
          · exact .refl n
  | written id' ok =>
      cases hsession
      rw [step]
      split_ifs
      · exact mute_written hclosed ok
      · exact .refl n
  | handshakeTimer id' =>
      cases hsession
      rw [step, handshakeTimer]
      split_ifs
      · exact .refl n
      · exact mute_stop hclosed _ _ _
  | idleTimer id' =>
      cases hsession
      rw [step, idleTimer, isReady_of_not_open hclosed]
      exact .refl n
  | pongTimer id' nonce =>
      cases hsession
      rw [step, pongTimer]
      split_ifs
      · exact mute_stop hclosed _ _ _
      · exact .refl n
  | sendMessage id' type payload =>
      cases hsession
      have hskip : n.sendMessage κ id type payload = n := by
        rw [sendMessage, isReady_of_not_open hclosed]
        rfl
      rw [step, hskip, ite_self]
      exact .refl n
  | _ => cases hsession

/-! ## Every run -/

/-- In a run in which no handler revives a session and no loop stops one, nothing undefined
happens, `peer_status_` names sessions of `sessions_` only, and a handler of a stopped session
neither records it, nor reports its handshake, nor stops a session. -/
theorem no_ghost_peers (κ : Crypto) (config : PeerNetworkConfig) (sessionNonce : FixedBytes 16)
    (events : List NetworkEvent)
    (h : Runs.Along (step κ) (fun n e => n.revives κ e = false ∧ n.overruns κ e = false)
      (start config sessionNonce) events) :
    ((start config sessionNonce).run κ events).undefined = false ∧
    (∀ entry ∈ ((start config sessionNonce).run κ events).peerStatus,
      entry.1 ∈ ((start config sessionNonce).run κ events).sessions) ∧
    Runs.Along (step κ)
      (fun n e => (∀ entry ∈ n.peerStatus, entry.1 ∈ n.sessions) ∧
        ∀ id s, e.session = some id → n.objects id = some s → s.stopped = true →
          (∀ entry ∈ (n.step κ e).peerStatus, entry.1 ≠ id) ∧
          (n.step κ e).completions id = n.completions id ∧
          ∀ other, (n.step κ e).isOpen other = n.isOpen other)
      (start config sessionNonce) events := by
  have hkeep : ∀ n e, n.revives κ e = false ∧ n.overruns κ e = false →
      n.undefined = false ∧ Inv n ∧ Recorded n →
      (n.step κ e).undefined = false ∧ Inv (n.step κ e) ∧ Recorded (n.step κ e) :=
    fun n e he hn => ⟨(defined_step hn.2.1 he.2).trans hn.1, inv_step κ hn.2.1 e,
      recorded_step hn.2.1 hn.2.2 he.1⟩
  have hstart : (start config sessionNonce).undefined = false ∧ (start config sessionNonce).Inv ∧
      (start config sessionNonce).Recorded :=
    ⟨rfl, inv_start config sessionNonce, fun entry hentry => absurd hentry List.not_mem_nil⟩
  obtain ⟨hdefined, -, hrecorded⟩ := h.invariant hkeep hstart
  refine ⟨hdefined, hrecorded, (h.and_invariant hkeep hstart).imp ?_⟩
  rintro n e ⟨⟨hrevives, -⟩, -, hinv, hrecorded⟩
  refine ⟨hrecorded, ?_⟩
  intro id s hsession hs hstopped
  have hmute := mute_step hs hstopped hsession hrevives
  refine ⟨?_, hmute.completions id, hmute.isOpen⟩
  rintro entry hentry rfl
  -- a recorded session is listed, so open
  have hlisted := (recorded_step hinv hrecorded hrevives) entry hentry
  have hopen := ((inv_step κ hinv e).listed entry.1).mp hlisted
  rw [hmute.isOpen, not_open_of_stopped hs hstopped] at hopen
  cases hopen

/-! ## A ghost -/

/-- The `HELLO` of another node of that network. -/
def remoteGreeting : HelloPayload :=
  { (start regtestConfig (List.Vector.replicate 16 2)).localHello with tipHeight := 7 }

/-- Its bytes on the wire. -/
def remoteFrame : Bytes := serializeFrame reference 2 .hello (serializeHello remoteGreeting)

/-- A socket is accepted and its `HELLO` read. -/
theorem no_ghost_peers_greeted :
    let events : List NetworkEvent :=
      [.accepted (some none), .headerRead 1 (some (remoteFrame.take frameHeaderSize)),
        .payloadRead 1 (some (remoteFrame.drop frameHeaderSize))]
    let n := (start regtestConfig (List.Vector.replicate 16 1)).run reference events
    n.peerStatus.map Prod.fst = [1] ∧ n.completions 1 = 1 ∧
      ∀ entry ∈ n.peerStatus, entry.1 ∈ n.sessions := by
  intro events n
  refine ⟨by decide +kernel, by decide +kernel, ?_⟩
  exact (no_ghost_peers reference regtestConfig (List.Vector.replicate 16 1) events
    (by decide +kernel)).2.1

/-- The handshake timer fires between the end of the read and its handler: the stopped
session completes its handshake and is recorded. -/
theorem ghost_peer :
    let events : List NetworkEvent :=
      [.accepted (some none), .headerRead 1 (some (remoteFrame.take frameHeaderSize)),
        .handshakeTimer 1, .payloadRead 1 (some (remoteFrame.drop frameHeaderSize))]
    let n := (start regtestConfig (List.Vector.replicate 16 1)).run reference events
    n.isOpen 1 = false ∧ n.completions 1 = 1 ∧
      ¬ ∀ entry ∈ n.peerStatus, entry.1 ∈ n.sessions := by
  decide +kernel

end PeerNetwork

end BBC
