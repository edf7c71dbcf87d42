/-
# `BBC.Network.Arrival` — what the arrival of a `HELLO` does

A session that waits for the first message of its remote end reads a header and a
payload.  The four outcomes, each with what it leaves of the other sessions:

    the checks refuse it              the session is stopped
    no session with that nonce        the handshake is complete
    one session, not preferred        it is replaced
    one session, preferred            the new session gives way
-/
import BBC.Network.Sessions

namespace BBC

namespace PeerNetwork

variable {κ : Crypto} {n n' n'' : PeerNetwork} {id other : Nat}

/-- How often a session has been stopped as a duplicate. -/
def duplicates (n : PeerNetwork) (id : Nat) : Nat :=
  n.emitted.count (.disconnected id .duplicatePeerConnection)

/-- A frame arrives on a session: its header is read, then its payload. -/
def arrives (κ : Crypto) (n : PeerNetwork) (id : Nat) (frame : Bytes) : PeerNetwork :=
  (n.step κ (.headerRead id (some (frame.take frameHeaderSize)))).step κ
    (.payloadRead id (some (frame.drop frameHeaderSize)))

/-- The `HELLO` that a node sends, with the tip it had when the session started. -/
def greeting (sender : PeerNetwork) (tip : UInt64 × Hash256) : HelloPayload :=
  { sender.localHello with tipHeight := tip.1, tipBlockId := tip.2 }

/-- Its frame. -/
def greetingFrame (κ : Crypto) (sender : PeerNetwork) (tip : UInt64 × Hash256) : Bytes :=
  serializeFrame κ sender.config.chainId .hello (serializeHello (sender.greeting tip))

/-- An open session that waits for the `HELLO` of the remote end. -/
def Waiting (n : PeerNetwork) (id : Nat) (direction : PeerDirection) : Prop :=
  ∃ s, n.objects id = some s ∧ s.stopped = false ∧ s.direction = direction
    ∧ s.remoteHello = none ∧ s.reading = .header ∧ s.readOpen = true

/-! ## What happens to the other sessions -/

/-- Only the session `id` changes, and no session is stopped as a duplicate. -/
structure Apart (id : Nat) (n n' : PeerNetwork) : Prop where
  config : n'.config = n.config
  nonce : n'.sessionNonce = n.sessionNonce
  objects : ∀ x, x ≠ id → n'.objects x = n.objects x
  duplicates : ∀ x, n'.duplicates x = n.duplicates x

theorem Apart.trans (h : Apart id n n') (h' : Apart id n' n'') : Apart id n n'' :=
  ⟨h'.config.trans h.config, h'.nonce.trans h.nonce,
    fun x hx => (h'.objects x hx).trans (h.objects x hx),
    fun x => (h'.duplicates x).trans (h.duplicates x)⟩

theorem Apart.refl (id : Nat) (n : PeerNetwork) : Apart id n n :=
  ⟨rfl, rfl, fun _ _ => rfl, fun _ => rfl⟩

theorem apart_modifySession (n : PeerNetwork) (id : Nat) (f : Session → Session) :
    Apart id n (n.modifySession id f) :=
  ⟨rfl, rfl, fun x hx => (objects_modifySession n id f x).trans (if_neg hx), fun _ => rfl⟩

theorem apart_modifyTarget (n : PeerNetwork) (id t : Nat) (f : Target → Target) :
    Apart id n (n.modifyTarget t f) :=
  ⟨rfl, rfl, fun _ _ => rfl, fun _ => rfl⟩

theorem apart_recordStatus (n : PeerNetwork) (id : Nat) : Apart id n (n.recordStatus id) := by
  rw [recordStatus]
  cases n.objects id with
  | none => exact .refl id n
  | some s => exact ⟨rfl, rfl, fun _ _ => rfl, fun _ => rfl⟩

theorem apart_emit (n : PeerNetwork) (id : Nat) {event : PeerEvent}
    (h : ∀ x, event ≠ .disconnected x .duplicatePeerConnection) : Apart id n (n.emit event) := by
  refine ⟨rfl, rfl, fun _ _ => rfl, fun x => ?_⟩
  rw [duplicates, duplicates, emit, List.count_append, List.count_singleton,
    if_neg (by simpa using h x), Nat.add_zero]

theorem apart_scheduleReconnect (n : PeerNetwork) (id t : Nat) :
    Apart id n (n.scheduleReconnect t) := by
  rw [scheduleReconnect]
  cases n.targetObjects t with
  | none => exact .refl id n
  | some target =>
      dsimp only
      split_ifs
      · exact .refl id n
      · exact apart_modifyTarget n id t _

theorem apart_releaseTarget (n : PeerNetwork) (id : Nat) (reconnect : Bool) :
    Apart id n (n.releaseTarget id reconnect) := by
  rw [releaseTarget]
  cases (n.objects id).bind Session.target with
  | none => exact .refl id n
  | some t =>
      dsimp only
      split_ifs
      · exact (apart_modifyTarget n id t _).trans (apart_scheduleReconnect _ id t)
      · exact apart_modifyTarget n id t _
      · exact .refl id n

theorem apart_stop {reason : StopReason} (h : reason ≠ .duplicatePeerConnection)
    (reconnect : Bool) : Apart id n (n.stop id reason true reconnect) := by
  rw [stop_notified]
  split_ifs
  · refine (apart_modifySession n id Session.halt).trans ?_
    refine Apart.trans ?_ (apart_releaseTarget _ id reconnect)
    have hother : ∀ x, PeerEvent.disconnected id reason
        ≠ .disconnected x .duplicatePeerConnection := by
      rintro x heq
      cases heq
      exact h rfl
    refine (apart_emit _ id hother).trans ?_
    exact ⟨rfl, rfl, fun _ _ => rfl, fun _ => rfl⟩
  · exact .refl id n

theorem apart_resetDelay (n : PeerNetwork) (id : Nat) : Apart id n (n.resetDelay id) := by
  rw [resetDelay]
  cases n.targetOf id with
  | none => exact .refl id n
  | some t => exact apart_modifyTarget n id t _

theorem apart_welcome (n : PeerNetwork) (id : Nat) : Apart id n (n.welcome id) :=
  ((apart_modifySession n id Session.welcome).trans (apart_recordStatus _ id)).trans
    (apart_emit _ id fun _ h => by cases h)

/-! ## The arrival of a `HELLO` -/

/-- What the two reads leave of a session. -/
def settle (header : FrameHeader) (s : Session) : Session :=
  Session.endRead (Session.startRead (.payload header) (Session.endRead s))

theorem modifySession_modifySession (n : PeerNetwork) (id : Nat) (f g : Session → Session) :
    (n.modifySession id f).modifySession id g = n.modifySession id (g ∘ f) := by
  simp [modifySession, Option.map_map]

/-- The frame of a `HELLO` is a header and the payload. -/
theorem greetingFrame_eq (κ : Crypto) (sender : PeerNetwork) (tip : UInt64 × Hash256) :
    ∃ network, networkParametersForChain sender.config.chainId = some network ∧
      (sender.greetingFrame κ tip).take frameHeaderSize
        = frameHeader network .hello (UInt32.ofNat helloPayloadSize)
            (κ.sha256 (serializeHello (sender.greeting tip))) ∧
      (sender.greetingFrame κ tip).drop frameHeaderSize
        = serializeHello (sender.greeting tip) := by
  obtain ⟨network, hnet⟩ := sender.config.supported.parameters
  have hlen := length_serializeHello (sender.greeting tip)
  have hsize : validPayloadSize .hello (serializeHello (sender.greeting tip)).length = true := by
    rw [hlen]
    rfl
  have hframe := serializeFrame_of_valid (κ := κ) hnet hsize
  have hheader : (frameHeader network .hello (UInt32.ofNat helloPayloadSize)
      (κ.sha256 (serializeHello (sender.greeting tip)))).length = frameHeaderSize :=
    length_frameHeader _ _ _
  rw [hlen] at hframe
  refine ⟨network, hnet, ?_, ?_⟩
  · rw [greetingFrame, hframe]
    exact List.take_left' hheader
  · rw [greetingFrame, hframe]
    exact List.drop_left' hheader

/-- The frame of another network is refused at its header. -/
theorem arrives_foreign {direction : PeerDirection} (hw : n.Waiting id direction)
    {sender : PeerNetwork} (hchain : sender.config.chainId ≠ n.config.chainId)
    (tip : UInt64 × Hash256) :
    n.arrives κ id (sender.greetingFrame κ tip)
      = (n.modifySession id Session.endRead).stop id (.protocol .invalidMagic) true true := by
  obtain ⟨s, hs, hopen, -, -, hreading, hread⟩ := hw
  obtain ⟨network, hnet, htake, -⟩ := greetingFrame_eq κ sender tip
  obtain ⟨own, hown⟩ := n.config.supported.parameters
  have hfirst : n.step κ (.headerRead id (some ((sender.greetingFrame κ tip).take frameHeaderSize)))
      = (n.modifySession id Session.endRead).stop id (.protocol .invalidMagic) true true := by
    rw [step, hs]
    dsimp only
    rw [htake, if_pos ⟨hreading, by simp [readable, hread]⟩, headerRead,
      deserializeFrameHeader_other hnet hown hchain.symm]
  have hobject : ((n.modifySession id Session.endRead).stop id (.protocol .invalidMagic) true
      true).objects id = some s.endRead.halt := by
    rw [objects_stop, if_pos rfl, objects_modifySession, if_pos rfl, hs]
    rfl
  -- the session waits for no payload
  rw [arrives, hfirst, step, hobject]
  rfl

/-- On the same network the payload is handled as the first message. -/
theorem arrives_same {direction : PeerDirection} (hw : n.Waiting id direction)
    {sender : PeerNetwork} (hchain : sender.config.chainId = n.config.chainId)
    (tip : UInt64 × Hash256) :
    ∃ header : FrameHeader, n.arrives κ id (sender.greetingFrame κ tip)
      = if ((n.modifySession id (settle header)).handleHello id
            (serializeHello (sender.greeting tip))).2 then
          ((n.modifySession id (settle header)).handleHello id
            (serializeHello (sender.greeting tip))).1.modifySession id (Session.startRead .header)
        else ((n.modifySession id (settle header)).handleHello id
            (serializeHello (sender.greeting tip))).1 := by
  obtain ⟨s, hs, hopen, -, hnone, hreading, hread⟩ := hw
  obtain ⟨network, hnet, htake, hdrop⟩ := greetingFrame_eq κ sender tip
  rw [hchain] at hnet
  let header : FrameHeader := ⟨.hello, UInt32.ofNat helloPayloadSize,
    κ.sha256 (serializeHello (sender.greeting tip))⟩
  have hsize : header.payloadLength.toNat = helloPayloadSize := rfl
  have hfirst : n.step κ (.headerRead id (some ((sender.greetingFrame κ tip).take frameHeaderSize)))
      = n.modifySession id (Session.startRead (.payload header) ∘ Session.endRead) := by
    rw [step, hs]
    dsimp only
    rw [htake, if_pos ⟨hreading, by simp [readable, hread]⟩, headerRead,
      deserializeFrameHeader_valid hnet (by rfl), ← modifySession_modifySession]
  have hobject : (n.modifySession id (Session.startRead (.payload header) ∘
      Session.endRead)).objects id = some (Session.startRead (.payload header) s.endRead) := by
    rw [objects_modifySession, if_pos rfl, hs]
    rfl
  have hvalid : validateFramePayload κ header (serializeHello (sender.greeting tip)) = .none := by
    rw [validateFramePayload, hsize, if_neg (not_not.mpr (length_serializeHello _)), if_pos rfl]
  have hreadable : readable (Session.startRead (.payload header) s.endRead)
      header.payloadLength.toNat (some (serializeHello (sender.greeting tip))) = true := by
    simp [readable, Session.startRead, Session.endRead, hopen, hsize]
  refine ⟨header, ?_⟩
  rw [arrives, hfirst, hdrop, step, hobject]
  dsimp only [Session.startRead]
  rw [← Session.startRead, if_pos hreadable, payloadRead]
  dsimp only
  rw [if_neg (not_not.mpr hvalid), modifySession_modifySession]
  have hmessage : ∀ m : PeerNetwork, m.handleMessage κ id
      (Session.startRead (.payload header) s.endRead) header.type
        (serializeHello (sender.greeting tip))
      = m.handleHello id (serializeHello (sender.greeting tip)) := by
    intro m
    rw [handleMessage, if_pos (by simp [Session.startRead, Session.endRead, hnone]),
      if_neg (not_not.mpr rfl)]
  rw [hmessage]
  rfl

/-! ## The checks of a `HELLO` -/

/-- The `HELLO`s of `sender` pass the checks of `handle_hello`. -/
def Compatible (n sender : PeerNetwork) : Prop :=
  sender.config.chainId = n.config.chainId
    ∧ sender.config.genesisBlockId = n.config.genesisBlockId
    ∧ sender.sessionNonce ≠ n.sessionNonce
    ∧ sender.config.services &&& (fullNodeService ||| miningService) ≠ 0

theorem deserializeHello_greeting (sender : PeerNetwork) (tip : UInt64 × Hash256) :
    deserializeHello (serializeHello (sender.greeting tip)) = .ok (sender.greeting tip) :=
  deserializeHello_serializeHello (show (1 : UInt16) ≠ 0 by decide)
    (show (1 : UInt16) ≤ 1 by decide)

/-- Whether they pass does not depend on the tip they advertise. -/
theorem checkHello_of_compatible {sender : PeerNetwork} (h : Compatible n sender)
    (tip : UInt64 × Hash256) :
    n.checkHello (serializeHello (sender.greeting tip)) = .ok (sender.greeting tip) := by
  obtain ⟨hchain, hgenesis, hnonce, hservices⟩ := h
  have hidentity : ¬ ((sender.greeting tip).chainId ≠ n.config.chainId
      ∨ (sender.greeting tip).genesisBlockId ≠ n.config.genesisBlockId) := by
    rintro (hne | hne)
    · exact hne hchain
    · exact hne hgenesis
  have hself : (sender.greeting tip).sessionNonce ≠ n.sessionNonce := hnonce
  have hoffer : (sender.greeting tip).services &&& (fullNodeService ||| miningService) ≠ 0 :=
    hservices
  have hversion : ¬ max (sender.greeting tip).minimumProtocolVersion protocolVersion
      > min (sender.greeting tip).maximumProtocolVersion protocolVersion := by
    show ¬ max protocolVersion protocolVersion > min protocolVersion protocolVersion
    decide
  rw [checkHello, deserializeHello_greeting]
  dsimp only
  rw [if_neg hidentity, if_neg hself, if_neg hoffer, if_neg hversion]

theorem checkHello_of_not_compatible {sender : PeerNetwork} (h : ¬ Compatible n sender)
    (tip : UInt64 × Hash256) :
    ∃ reason, n.checkHello (serializeHello (sender.greeting tip)) = .error reason
      ∧ reason ≠ .duplicatePeerConnection := by
  rw [checkHello, deserializeHello_greeting]
  dsimp only
  by_cases hidentity : (sender.greeting tip).chainId ≠ n.config.chainId
      ∨ (sender.greeting tip).genesisBlockId ≠ n.config.genesisBlockId
  · rw [if_pos hidentity]
    exact ⟨_, rfl, fun h => by cases h⟩
  rw [if_neg hidentity]
  by_cases hself : (sender.greeting tip).sessionNonce = n.sessionNonce
  · rw [if_pos hself]
    exact ⟨_, rfl, fun h => by cases h⟩
  rw [if_neg hself]
  by_cases hoffer : (sender.greeting tip).services &&& (fullNodeService ||| miningService) = 0
  · rw [if_pos hoffer]
    exact ⟨_, rfl, fun h => by cases h⟩
  obtain ⟨hchain, hgenesis⟩ := not_or.mp hidentity
  exact absurd ⟨not_not.mp hchain, not_not.mp hgenesis, hself, hoffer⟩ h

/-- A `HELLO` that does not pass only stops its own session. -/
theorem arrives_refused {direction : PeerDirection} (hw : n.Waiting id direction)
    {sender : PeerNetwork} (h : ¬ Compatible n sender) (tip : UInt64 × Hash256) :
    Apart id n (n.arrives κ id (sender.greetingFrame κ tip)) ∧
      (n.arrives κ id (sender.greetingFrame κ tip)).isOpen id = false := by
  by_cases hchain : sender.config.chainId = n.config.chainId
  · obtain ⟨header, harrives⟩ := arrives_same (κ := κ) hw hchain tip
    have hfirst := apart_modifySession n id (settle header)
    obtain ⟨reason, hcheck, hreason⟩ := checkHello_of_not_compatible h tip
    have hhello : (n.modifySession id (settle header)).handleHello id
        (serializeHello (sender.greeting tip))
        = ((n.modifySession id (settle header)).stop id reason true true, false) := by
      have hsame : (n.modifySession id (settle header)).checkHello
          (serializeHello (sender.greeting tip)) = .error reason := hcheck
      rw [handleHello, hsame]
    rw [harrives, hhello]
    refine ⟨hfirst.trans (apart_stop hreason true), ?_⟩
    refine (isOpen_stop ..).trans ?_
    simp
  · rw [arrives_foreign hw hchain]
    refine ⟨(apart_modifySession n id _).trans (apart_stop (fun h => by cases h) true), ?_⟩
    rw [isOpen_stop]
    simp

/-! ## A `HELLO` that passes -/

/-- The end of the payload handler of a `HELLO`. -/
def seat (id : Nat) (r : PeerNetwork × Bool) : PeerNetwork :=
  if r.2 then (r.1.welcome id).modifySession id (Session.startRead .header) else r.1

/-- The session is greeted and nothing else about it changes. -/
structure Greets (nonce : FixedBytes 16) (f : Session → Session) : Prop where
  direction : ∀ s, (f s).direction = s.direction
  target : ∀ s, (f s).target = s.target
  stopped : ∀ s, (f s).stopped = s.stopped
  nonce : ∀ s, (f s).hasNonce nonce = true

theorem arrives_compatible {direction : PeerDirection} (hw : n.Waiting id direction)
    {sender : PeerNetwork} (h : Compatible n sender) (tip : UInt64 × Hash256) :
    ∃ f, Greets sender.sessionNonce f ∧ n.arrives κ id (sender.greetingFrame κ tip)
      = seat id ((n.modifySession id f).completeHandshake id sender.sessionNonce) := by
  obtain ⟨header, harrives⟩ := arrives_same (κ := κ) hw h.1 tip
  have hcheck : (n.modifySession id (settle header)).checkHello
      (serializeHello (sender.greeting tip)) = .ok (sender.greeting tip) :=
    checkHello_of_compatible h tip
  refine ⟨Session.greet (sender.greeting tip) ∘ settle header,
    ⟨fun _ => rfl, fun _ => rfl, fun _ => rfl, fun _ => decide_eq_true rfl⟩, ?_⟩
  have hhello : (n.modifySession id (settle header)).handleHello id
      (serializeHello (sender.greeting tip))
      = if ((n.modifySession id (Session.greet (sender.greeting tip) ∘ settle header)
            ).completeHandshake id sender.sessionNonce).2 then
          (((n.modifySession id (Session.greet (sender.greeting tip) ∘ settle header)
            ).completeHandshake id sender.sessionNonce).1.welcome id, true)
        else (((n.modifySession id (Session.greet (sender.greeting tip) ∘ settle header)
            ).completeHandshake id sender.sessionNonce).1, false) := by
    rw [handleHello, hcheck]
    dsimp only
    rw [greet, modifySession_modifySession]
    rfl
  rw [harrives, hhello, seat]
  rcases (n.modifySession id (Session.greet (sender.greeting tip) ∘ settle header)
    ).completeHandshake id sender.sessionNonce with ⟨m, done⟩
  cases done with
  | true => rfl
  | false => rfl

section Greeting

variable {nonce : FixedBytes 16} {f : Session → Session} (hf : Greets nonce f)

include hf

theorem Greets.isOpen (x : Nat) : (n.modifySession id f).isOpen x = n.isOpen x := by
  rw [PeerNetwork.isOpen, PeerNetwork.isOpen, objects_modifySession]
  split_ifs with heq
  · rw [heq]
    cases n.objects id with
    | none => rfl
    | some s => rw [Option.map_some, Option.any_some, Option.any_some, hf.stopped s]
  · rfl

theorem Greets.targetOf (x : Nat) : (n.modifySession id f).targetOf x = n.targetOf x := by
  rw [PeerNetwork.targetOf, PeerNetwork.targetOf, objects_modifySession]
  split_ifs with heq
  · rw [heq]
    cases n.objects id with
    | none => rfl
    | some s => exact hf.target s
  · rfl

theorem Greets.directed (x : Nat) (direction : PeerDirection) :
    (n.modifySession id f).directed x direction = n.directed x direction := by
  rw [PeerNetwork.directed, PeerNetwork.directed, objects_modifySession]
  split_ifs with heq
  · rw [heq]
    cases n.objects id with
    | none => rfl
    | some s => rw [Option.map_some, Option.any_some, Option.any_some, hf.direction s]
  · rfl

theorem Greets.listed (hn : n.Listed) : (n.modifySession id f).Listed := by
  intro x
  rw [hf.isOpen]
  exact hn x

theorem Greets.greeted (h : n.isOpen id = true) : (n.modifySession id f).Greeted id nonce := by
  obtain ⟨s, hs, hopen⟩ := isOpen_eq_true.mp h
  refine ⟨f s, ?_, (hf.stopped s).trans hopen, hf.nonce s⟩
  rw [objects_modifySession, if_pos rfl, hs]
  rfl

end Greeting

theorem greeted_modifySession {f : Session → Session} {nonce : FixedBytes 16} (h : other ≠ id) :
    (n.modifySession id f).Greeted other nonce ↔ n.Greeted other nonce := by
  rw [Greeted, Greeted, objects_modifySession, if_neg h]

/-- The one other session with the nonce is the one the loop stops at. -/
theorem duplicateOf_of_greeted (hn : n.Listed) {nonce : FixedBytes 16} (hne : other ≠ id)
    (hother : n.Greeted other nonce)
    (hunique : ∀ x, x ≠ id → n.Greeted x nonce → x = other) :
    n.duplicateOf id nonce = some other := by
  cases hdup : n.duplicateOf id nonce with
  | none => exact absurd (duplicateOf_eq_none hn hdup hother) hne
  | some x =>
      obtain ⟨hx, hgreeted⟩ := duplicateOf_eq_some hn hdup
      rw [hunique x hx hgreeted]

theorem objects_resetDelay (n : PeerNetwork) (id : Nat) :
    (n.resetDelay id).objects = n.objects := by
  rw [resetDelay]
  cases n.targetOf id with
  | none => rfl
  | some t => rfl

theorem sessionId_resetDelay (n : PeerNetwork) (id t : Nat) :
    ((n.resetDelay id).targetObjects t).map Target.sessionId
      = (n.targetObjects t).map Target.sessionId := by
  rw [resetDelay]
  cases n.targetOf id with
  | none => rfl
  | some t' =>
      show (Function.update n.targetObjects t' _ t).map Target.sessionId = _
      by_cases heq : t = t'
      · subst heq
        rw [Function.update_self, Option.map_map]
        rfl
      · rw [Function.update_of_ne heq]

theorem objects_recordStatus (n : PeerNetwork) (id : Nat) :
    (n.recordStatus id).objects = n.objects := by
  rw [recordStatus]
  cases n.objects id with
  | none => rfl
  | some s => rfl

theorem targetObjects_recordStatus (n : PeerNetwork) (id : Nat) :
    (n.recordStatus id).targetObjects = n.targetObjects := by
  rw [recordStatus]
  cases n.objects id with
  | none => rfl
  | some s => rfl

/-- A session that takes its seat changes in two fields. -/
theorem objects_seat (n : PeerNetwork) (id x : Nat) :
    (seat id (n, true)).objects x
      = if x = id then (n.objects id).map (Session.startRead .header ∘ Session.welcome)
        else n.objects x := by
  rw [seat, if_pos rfl, objects_modifySession]
  have hwelcome : ∀ y, (n.welcome id).objects y
      = (n.modifySession id Session.welcome).objects y := by
    intro y
    exact congrFun (objects_recordStatus (n.modifySession id Session.welcome) id) y
  rw [hwelcome, hwelcome, objects_modifySession, objects_modifySession, if_pos rfl]
  split_ifs
  · rw [Option.map_map]
  · rfl

theorem isOpen_seat (n : PeerNetwork) (id x : Nat) :
    (seat id (n, true)).isOpen x = n.isOpen x := by
  rw [isOpen, isOpen, objects_seat]
  split_ifs with heq
  · rw [heq]
    cases n.objects id with
    | none => rfl
    | some s => rfl
  · rfl

theorem targetOf_seat (n : PeerNetwork) (id x : Nat) :
    (seat id (n, true)).targetOf x = n.targetOf x := by
  rw [targetOf, targetOf, objects_seat]
  split_ifs with heq
  · rw [heq]
    cases n.objects id with
    | none => rfl
    | some s => rfl
  · rfl

theorem targetObjects_seat (n : PeerNetwork) (id : Nat) :
    (seat id (n, true)).targetObjects = n.targetObjects :=
  targetObjects_recordStatus (n.modifySession id Session.welcome) id

theorem apart_seat (n : PeerNetwork) (id : Nat) : Apart id n (seat id (n, true)) :=
  (apart_welcome n id).trans (apart_modifySession _ id _)

theorem targetOf_resetDelay (n : PeerNetwork) (id x : Nat) :
    (n.resetDelay id).targetOf x = n.targetOf x := by
  rw [targetOf, targetOf, objects_resetDelay]

/-- The first `HELLO` of a node completes the handshake. -/
theorem arrives_first {direction : PeerDirection} (hn : n.Inv) (hw : n.Waiting id direction)
    {sender : PeerNetwork} (h : Compatible n sender)
    (halone : ∀ x, ¬ n.Greeted x sender.sessionNonce) (tip : UInt64 × Hash256) :
    Apart id n (n.arrives κ id (sender.greetingFrame κ tip)) ∧
      (n.arrives κ id (sender.greetingFrame κ tip)).Greeted id sender.sessionNonce ∧
      (n.arrives κ id (sender.greetingFrame κ tip)).targetOf id = n.targetOf id ∧
      (n.arrives κ id (sender.greetingFrame κ tip)).directed id direction = true := by
  obtain ⟨f, hf, harrives⟩ := arrives_compatible (κ := κ) hw h tip
  obtain ⟨s, hs, hopen, hdirection, -⟩ := hw
  have hdup : (n.modifySession id f).duplicateOf id sender.sessionNonce = none := by
    cases hdup : (n.modifySession id f).duplicateOf id sender.sessionNonce with
    | none => rfl
    | some x =>
        obtain ⟨hx, hgreeted⟩ := duplicateOf_eq_some (hf.listed hn.listed) hdup
        exact absurd ((greeted_modifySession hx).mp hgreeted) (halone x)
  have hcomplete : (n.modifySession id f).completeHandshake id sender.sessionNonce
      = ((n.modifySession id f).resetDelay id, true) := by
    rw [completeHandshake, hdup]
  rw [harrives, hcomplete]
  have hobject : (seat id ((n.modifySession id f).resetDelay id, true)).objects id
      = some (Session.startRead .header (f s).welcome) := by
    rw [objects_seat, if_pos rfl, objects_resetDelay, objects_modifySession, if_pos rfl, hs]
    rfl
  refine ⟨?_, ?_, ?_, ?_⟩
  · exact ((apart_modifySession n id f).trans (apart_resetDelay _ id)).trans (apart_seat _ id)
  · exact ⟨_, hobject, (hf.stopped s).trans hopen, hf.nonce s⟩
  · rw [targetOf_seat, targetOf_resetDelay, hf.targetOf]
  · rw [directed, hobject]
    exact decide_eq_true ((hf.direction s).trans hdirection)

/-! ## The second `HELLO` -/

theorem duplicates_stop (n : PeerNetwork) {id x : Nat} (h : x ≠ id) (reason : StopReason)
    (reconnect : Bool) : (n.stop id reason true reconnect).duplicates x = n.duplicates x := by
  rw [stop_notified]
  split_ifs
  · rw [sessionStopped, (apart_releaseTarget _ id reconnect).duplicates]
    show (n.emitted ++ [PeerEvent.disconnected id reason]).count _ = _
    rw [List.count_append, List.count_singleton, duplicates]
    simp [h.symm]
  · rfl

theorem duplicates_adoptTarget (n : PeerNetwork) (id : Nat) (target : Option Nat) (x : Nat) :
    (n.adoptTarget id target).duplicates x = n.duplicates x := by
  cases target with
  | none => rfl
  | some t => rfl

/-- Only the replaced session is stopped as a duplicate. -/
theorem duplicates_replace (n : PeerNetwork) (id : Nat) {other x : Nat} (h : x ≠ other) :
    (n.replace id other).duplicates x = n.duplicates x := by
  rw [replace, duplicates_stop _ h]
  split_ifs
  · exact duplicates_adoptTarget ..
  · rfl

theorem yieldTo_eq (n : PeerNetwork) (id other : Nat) :
    n.yieldTo id other = n.replace other id := rfl

/-- A session without a target takes over the target of the session it replaces. -/
theorem handover_replace {kept gone t : Nat} (hne : kept ≠ gone) (hkept : n.targetOf kept = none)
    (hgone : n.targetOf gone = some t) (hsome : (n.objects kept).isSome = true) :
    (n.replace kept gone).targetOf kept = some t ∧
      ∀ target, (n.replace kept gone).targetObjects t = some target →
        target.sessionId = some kept := by
  have hadopt : n.replace kept gone
      = (n.adoptTarget kept (some t)).stop gone .duplicatePeerConnection true false := by
    rw [replace, hkept, hgone]
    rfl
  obtain ⟨s, hs⟩ := Option.isSome_iff_exists.mp hsome
  have hself : (n.adoptTarget kept (some t)).objects kept = some (s.adopt t) := by
    refine (objects_modifySession n kept (Session.adopt t) kept).trans ?_
    rw [if_pos rfl, hs]
    rfl
  have htarget : ∀ target, (n.adoptTarget kept (some t)).targetObjects t = some target →
      target.sessionId = some kept := by
    intro target h
    have hupdate : (n.adoptTarget kept (some t)).targetObjects t
        = (n.targetObjects t).map fun target => { target with sessionId := some kept } :=
      Function.update_self ..
    rw [hupdate] at h
    obtain ⟨old, -, rfl⟩ := Option.map_eq_some_iff.mp h
    rfl
  rw [hadopt]
  refine ⟨?_, ?_⟩
  · rw [targetOf, objects_stop, if_neg hne, hself]
    rfl
  · rw [stop_notified]
    split_ifs
    · -- the target belongs to the kept session, so stopping the other leaves it
      have hkeeps : ((n.adoptTarget kept (some t)).modifySession gone Session.halt).sessionStopped
          gone .duplicatePeerConnection false
          = (((n.adoptTarget kept (some t)).modifySession gone Session.halt).emit
              (.disconnected gone .duplicatePeerConnection)).unlist gone := by
        rw [sessionStopped, releaseTarget]
        split
        · rfl
        rename_i t' ht'
        have heq : t' = t := by
          have hold : ((n.adoptTarget kept (some t)).modifySession gone Session.halt).targetOf gone
              = some t := by
            rw [targetOf, objects_modifySession, if_pos rfl]
            have hgone' : (n.adoptTarget kept (some t)).objects gone = n.objects gone :=
              (objects_modifySession n kept (Session.adopt t) gone).trans (if_neg hne.symm)
            rw [hgone']
            rw [targetOf] at hgone
            cases hg : n.objects gone with
            | none => rw [hg] at hgone; cases hgone
            | some g => rw [hg] at hgone; exact hgone
          have hsame := ht'.symm.trans hold
          exact Option.some.inj hsame
        subst heq
        refine if_neg ?_
        intro hbind
        obtain ⟨target, hobject, hsession⟩ := Option.bind_eq_some_iff.mp hbind
        rw [htarget target hobject] at hsession
        exact hne (Option.some.inj hsession)
      rw [hkeeps]
      exact htarget
    · exact htarget

/-- The `HELLO` of the preferred connection comes second: the other one is replaced. -/
theorem arrives_replacing (hn : n.Inv) {sender : PeerNetwork} {direction : PeerDirection}
    (hw : n.Waiting id direction) (h : Compatible n sender)
    (hother : n.Greeted other sender.sessionNonce) (hne : other ≠ id)
    (hpreferred : direction = n.preferred sender.sessionNonce)
    (hlosing : n.directed other direction = false) (tip : UInt64 × Hash256) :
    (∀ x, (n.arrives κ id (sender.greetingFrame κ tip)).isOpen x = (n.isOpen x && x ≠ other)) ∧
      (n.arrives κ id (sender.greetingFrame κ tip)).duplicates id = n.duplicates id ∧
      ∀ t, n.targetOf other = some t → n.targetOf id = none →
        (n.arrives κ id (sender.greetingFrame κ tip)).targetOf id = some t ∧
          ∀ target, (n.arrives κ id (sender.greetingFrame κ tip)).targetObjects t = some target →
            target.sessionId = some id := by
  obtain ⟨f, hf, harrives⟩ := arrives_compatible (κ := κ) hw h tip
  obtain ⟨s, hs, hopen, hdirection, -⟩ := hw
  have hdup : (n.modifySession id f).duplicateOf id sender.sessionNonce = some other := by
    refine duplicateOf_of_greeted (hf.listed hn.listed) hne ((greeted_modifySession hne).mpr hother)
      fun x hx hgreeted => ?_
    exact hn.unique x other _ ((greeted_modifySession hx).mp hgreeted) hother
  have hcandidate : (n.modifySession id f).directed id (n.preferred sender.sessionNonce)
    = true := by
    rw [hf.directed, ← hpreferred, directed, hs]
    exact decide_eq_true hdirection
  have hexisting : ¬ (n.modifySession id f).directed other (n.preferred sender.sessionNonce)
      = true := by
    rw [hf.directed, ← hpreferred, hlosing]
    exact Bool.false_ne_true
  have hcomplete : (n.modifySession id f).completeHandshake id sender.sessionNonce
      = (((n.modifySession id f).replace id other).resetDelay id, true) := by
    rw [completeHandshake, hdup]
    exact if_pos ⟨hcandidate, hexisting⟩
  rw [harrives, hcomplete]
  refine ⟨?_, ?_, ?_⟩
  · intro x
    rw [isOpen_seat, isOpen_resetDelay, isOpen_replace, hf.isOpen]
  · rw [(apart_seat _ id).duplicates, (apart_resetDelay _ id).duplicates,
      duplicates_replace _ _ hne.symm]
    rfl
  · intro t hold hnone
    have hsome : ((n.modifySession id f).objects id).isSome = true := by
      rw [objects_modifySession, if_pos rfl, hs]
      rfl
    obtain ⟨htarget, hsession⟩ := handover_replace hne.symm ((hf.targetOf id).trans hnone)
      ((hf.targetOf other).trans hold) hsome
    refine ⟨?_, ?_⟩
    · rw [targetOf_seat, targetOf_resetDelay]
      exact htarget
    · intro target hobject
      rw [targetObjects_seat] at hobject
      have hid := sessionId_resetDelay ((n.modifySession id f).replace id other) id t
      rw [hobject] at hid
      obtain ⟨old, hold', hsame⟩ := Option.map_eq_some_iff.mp hid.symm
      rw [← hsame]
      exact hsession old hold'

/-- The `HELLO` of the other connection comes second: it gives way. -/
theorem arrives_yielding (hn : n.Inv) {sender : PeerNetwork} {direction : PeerDirection}
    (hw : n.Waiting id direction) (h : Compatible n sender)
    (hother : n.Greeted other sender.sessionNonce) (hne : other ≠ id)
    (hlosing : direction ≠ n.preferred sender.sessionNonce) (tip : UInt64 × Hash256) :
    (∀ x, (n.arrives κ id (sender.greetingFrame κ tip)).isOpen x = (n.isOpen x && x ≠ id)) ∧
      (n.arrives κ id (sender.greetingFrame κ tip)).duplicates other = n.duplicates other ∧
      ∀ t, n.targetOf id = some t → n.targetOf other = none →
        (n.arrives κ id (sender.greetingFrame κ tip)).targetOf other = some t ∧
          ∀ target, (n.arrives κ id (sender.greetingFrame κ tip)).targetObjects t = some target →
            target.sessionId = some other := by
  obtain ⟨f, hf, harrives⟩ := arrives_compatible (κ := κ) hw h tip
  obtain ⟨s, hs, hopen, hdirection, -⟩ := hw
  have hdup : (n.modifySession id f).duplicateOf id sender.sessionNonce = some other := by
    refine duplicateOf_of_greeted (hf.listed hn.listed) hne ((greeted_modifySession hne).mpr hother)
      fun x hx hgreeted => ?_
    exact hn.unique x other _ ((greeted_modifySession hx).mp hgreeted) hother
  have hcandidate : ¬ (n.modifySession id f).directed id (n.preferred sender.sessionNonce)
      = true := by
    rw [hf.directed, directed, hs]
    intro heq
    exact hlosing (hdirection.symm.trans (of_decide_eq_true heq))
  have hcomplete : (n.modifySession id f).completeHandshake id sender.sessionNonce
      = ((n.modifySession id f).yieldTo id other, false) := by
    rw [completeHandshake, hdup]
    exact if_neg fun h => hcandidate h.1
  have hseat : n.arrives κ id (sender.greetingFrame κ tip)
      = (n.modifySession id f).replace other id := by
    rw [harrives, hcomplete, seat, if_neg Bool.false_ne_true, yieldTo_eq]
  rw [hseat]
  refine ⟨?_, ?_, ?_⟩
  · intro x
    rw [isOpen_replace, hf.isOpen]
  · rw [duplicates_replace _ _ hne]
    rfl
  · intro t hold hnone
    obtain ⟨g, hg, -⟩ := hother
    have hsome : ((n.modifySession id f).objects other).isSome = true := by
      rw [objects_modifySession, if_neg hne, hg]
      rfl
    exact handover_replace hne ((hf.targetOf other).trans hnone) ((hf.targetOf id).trans hold) hsome

end PeerNetwork

end BBC
