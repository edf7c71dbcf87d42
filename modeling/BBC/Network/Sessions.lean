/-
# `BBC.Network.Sessions` — what every order of handlers keeps

Most handlers are *quiet*: they create no session, greet none, and stop a session
only together with its entries in `sessions_` and `peer_status_`.  `Quiet` says so once
and composes; what is left are the creation of a session, the handshake, a `PONG` and
the shutdown.

The invariant `Inv` holds for every order of handlers: the open sessions are those of
`sessions_`, and no two of them have been greeted by the same remote end.
-/
import BBC.Network.PeerNetwork

namespace BBC

/-- What quiet handlers leave of a session: it may only be stopped. -/
structure Session.Later (s s' : Session) : Prop where
  direction : s'.direction = s.direction
  remoteHello : s'.remoteHello = s.remoteHello
  stopped : s.stopped = true → s'.stopped = true

/-- A change that neither greets nor stops a session. -/
def Session.Inner (f : Session → Session) : Prop :=
  ∀ s, s.Later (f s) ∧ (f s).stopped = s.stopped

theorem Session.Later.refl (s : Session) : s.Later s := ⟨rfl, rfl, id⟩

theorem Session.Later.trans {s s' s'' : Session} (h : s.Later s') (h' : s'.Later s'') :
    s.Later s'' :=
  ⟨h'.direction.trans h.direction, h'.remoteHello.trans h.remoteHello,
    fun hs => h'.stopped (h.stopped hs)⟩

namespace Session

theorem inner_endRead : Inner endRead := fun _ => ⟨⟨rfl, rfl, id⟩, rfl⟩

theorem inner_startRead (reading : Reading) : Inner (startRead reading) :=
  fun _ => ⟨⟨rfl, rfl, id⟩, rfl⟩

theorem inner_queue (frame : Bytes) : Inner (queue frame) := by
  intro s
  rw [queue]
  split_ifs
  · exact ⟨⟨rfl, rfl, id⟩, rfl⟩
  · exact ⟨⟨rfl, rfl, id⟩, rfl⟩

theorem inner_endWrite : Inner endWrite := fun _ => ⟨⟨rfl, rfl, id⟩, rfl⟩

theorem inner_dequeue : Inner dequeue := fun _ => ⟨⟨rfl, rfl, id⟩, rfl⟩

theorem inner_pinged (nonce : UInt64) : Inner (pinged nonce) := fun _ => ⟨⟨rfl, rfl, id⟩, rfl⟩

theorem inner_ponged (nonce : UInt64) : Inner (ponged nonce) := fun _ => ⟨⟨rfl, rfl, id⟩, rfl⟩

theorem inner_watch (nonce : Option UInt64) : Inner (watch nonce) :=
  fun _ => ⟨⟨rfl, rfl, id⟩, rfl⟩

theorem inner_adopt (t : Nat) : Inner (adopt t) := fun _ => ⟨⟨rfl, rfl, id⟩, rfl⟩

theorem inner_welcome : Inner welcome := fun _ => ⟨⟨rfl, rfl, id⟩, rfl⟩

end Session

namespace PeerNetwork

variable {κ : Crypto} {n n' n'' : PeerNetwork} {id other t : Nat}

/-- `sessions_` lists the open sessions. -/
def Listed (n : PeerNetwork) : Prop := ∀ id, id ∈ n.sessions ↔ n.isOpen id = true

/-- Every id of `peer_status_` is an id of `sessions_`. -/
def Recorded (n : PeerNetwork) : Prop := ∀ entry ∈ n.peerStatus, entry.1 ∈ n.sessions

/-- No session is created or greeted, and those that are stopped are taken off the list. -/
structure Calm (n n' : PeerNetwork) : Prop where
  nonce : n'.sessionNonce = n.sessionNonce
  next : n'.nextSessionId = n.nextSessionId
  absent : ∀ id, n.objects id = none → n'.objects id = none
  later : ∀ id s, n.objects id = some s → ∃ s', n'.objects id = some s' ∧ s.Later s'
  listed : n.Listed → n'.Listed
  sublist : n'.sessions.Sublist n.sessions
  defined : n'.undefined = n.undefined

/-- Nor is a session recorded that is not listed. -/
structure Quiet (n n' : PeerNetwork) : Prop extends Calm n n' where
  recorded : n.Listed → n.Recorded → n'.Recorded

theorem Calm.trans (h : Calm n n') (h' : Calm n' n'') : Calm n n'' where
  nonce := h'.nonce.trans h.nonce
  next := h'.next.trans h.next
  absent id hid := h'.absent id (h.absent id hid)
  later id s hs := by
    obtain ⟨s', hs', hlater⟩ := h.later id s hs
    obtain ⟨s'', hs'', hlater'⟩ := h'.later id s' hs'
    exact ⟨s'', hs'', hlater.trans hlater'⟩
  listed hn := h'.listed (h.listed hn)
  sublist := h'.sublist.trans h.sublist
  defined := h'.defined.trans h.defined

theorem Quiet.trans (h : Quiet n n') (h' : Quiet n' n'') : Quiet n n'' where
  toCalm := h.toCalm.trans h'.toCalm
  recorded hn hr := h'.recorded (h.listed hn) (h.recorded hn hr)

/-! ## Small handlers -/

theorem isOpen_eq_true : n.isOpen id = true ↔ ∃ s, n.objects id = some s ∧ s.stopped = false := by
  rw [isOpen]
  cases n.objects id with
  | none => simp
  | some s => simp

/-- A change of other fields is quiet. -/
theorem quiet_of_eq (hnonce : n'.sessionNonce = n.sessionNonce)
    (hnext : n'.nextSessionId = n.nextSessionId) (hobjects : n'.objects = n.objects)
    (hsessions : n'.sessions = n.sessions) (hstatus : n'.peerStatus = n.peerStatus)
    (hdefined : n'.undefined = n.undefined) : Quiet n n' where
  nonce := hnonce
  next := hnext
  absent id hid := by rw [hobjects]; exact hid
  later id s hs := ⟨s, by rw [hobjects]; exact hs, .refl s⟩
  listed hn id := by
    rw [hsessions, isOpen, hobjects]
    exact hn id
  sublist := by rw [hsessions]
  defined := hdefined
  recorded _ hr := by
    rw [Recorded, hstatus, hsessions]
    exact hr

theorem Quiet.refl (n : PeerNetwork) : Quiet n n := quiet_of_eq rfl rfl rfl rfl rfl rfl

theorem quiet_emit (n : PeerNetwork) (event : PeerEvent) : Quiet n (n.emit event) :=
  quiet_of_eq rfl rfl rfl rfl rfl rfl

theorem quiet_modifyTarget (n : PeerNetwork) (t : Nat) (f : Target → Target) :
    Quiet n (n.modifyTarget t f) :=
  quiet_of_eq rfl rfl rfl rfl rfl rfl

theorem objects_modifySession (n : PeerNetwork) (id : Nat) (f : Session → Session) (other : Nat) :
    (n.modifySession id f).objects other
      = if other = id then (n.objects id).map f else n.objects other := by
  rw [modifySession]
  exact Function.update_apply ..

/-- A change inside a session that neither greets nor stops it. -/
theorem quiet_modifySession (n : PeerNetwork) (id : Nat) {f : Session → Session}
    (hf : Session.Inner f) : Quiet n (n.modifySession id f) where
  nonce := rfl
  next := rfl
  absent other hother := by
    rw [objects_modifySession]
    split_ifs with heq
    · rw [← heq, hother]
      rfl
    · exact hother
  later other s hs := by
    rw [objects_modifySession]
    split_ifs with heq
    · rw [← heq, hs]
      exact ⟨f s, rfl, (hf s).1⟩
    · exact ⟨s, hs, .refl s⟩
  listed hn other := by
    refine (hn other).trans ?_
    rw [isOpen, isOpen, objects_modifySession]
    split_ifs with heq
    · rw [← heq]
      cases n.objects other with
      | none => rfl
      | some s => rw [Option.map_some, Option.any_some, Option.any_some, (hf s).2]
    · rfl
  sublist := .refl _
  defined := rfl
  recorded _ hr := hr

/-- A listed session may be recorded. -/
theorem quiet_recordStatus (hopen : n.isOpen id = true) : Quiet n (n.recordStatus id) := by
  obtain ⟨s, hs, -⟩ := isOpen_eq_true.mp hopen
  rw [recordStatus, hs]
  refine ⟨⟨rfl, rfl, fun _ h => h, fun _ s h => ⟨s, h, .refl s⟩, fun h => h, .refl _, rfl⟩,
    ?_⟩
  intro hn hr entry hentry
  rcases List.mem_append.mp hentry with hold | hnew
  · exact hr entry (List.mem_of_mem_filter hold)
  · rw [List.mem_singleton.mp hnew]
    exact (hn id).mpr hopen

/-- Recording any session changes no session. -/
theorem calm_recordStatus (n : PeerNetwork) (id : Nat) : Calm n (n.recordStatus id) := by
  rw [recordStatus]
  cases n.objects id with
  | none => exact (Quiet.refl n).toCalm
  | some s => exact ⟨rfl, rfl, fun _ h => h, fun _ s h => ⟨s, h, .refl s⟩, fun h => h, .refl _, rfl⟩

/-! ## Stopping -/

@[simp] theorem objects_scheduleReconnect (n : PeerNetwork) (t : Nat) :
    (n.scheduleReconnect t).objects = n.objects := by
  rw [scheduleReconnect]
  cases n.targetObjects t with
  | none => rfl
  | some target =>
      dsimp only
      split_ifs
      · rfl
      · rfl

theorem quiet_scheduleReconnect (n : PeerNetwork) (t : Nat) : Quiet n (n.scheduleReconnect t) := by
  rw [scheduleReconnect]
  cases n.targetObjects t with
  | none => exact .refl n
  | some target =>
      dsimp only
      split_ifs
      · exact .refl n
      · exact quiet_modifyTarget n t _

theorem quiet_releaseTarget (n : PeerNetwork) (id : Nat) (reconnect : Bool) :
    Quiet n (n.releaseTarget id reconnect) := by
  rw [releaseTarget]
  cases (n.objects id).bind Session.target with
  | none => exact .refl n
  | some t =>
      dsimp only
      split_ifs
      · exact (quiet_modifyTarget n t _).trans (quiet_scheduleReconnect _ t)
      · exact quiet_modifyTarget n t _
      · exact .refl n

@[simp] theorem objects_releaseTarget (n : PeerNetwork) (id : Nat) (reconnect : Bool) :
    (n.releaseTarget id reconnect).objects = n.objects := by
  rw [releaseTarget]
  cases (n.objects id).bind Session.target with
  | none => rfl
  | some t =>
      dsimp only
      split_ifs
      · exact objects_scheduleReconnect _ t
      · rfl
      · rfl

/-- Taking an open session off both tables as it is stopped. -/
theorem quiet_halt {s : Session} (hs : n.objects id = some s) :
    Quiet n ((n.modifySession id Session.halt).unlist id) := by
  have hself : ∀ other, ((n.modifySession id Session.halt).unlist id).objects other
      = if other = id then some s.halt else n.objects other := by
    intro other
    refine (objects_modifySession n id Session.halt other).trans ?_
    rw [hs]
    rfl
  constructor
  · constructor
    · rfl
    · rfl
    · intro other hother
      rw [hself, if_neg, hother]
      rintro rfl
      rw [hs] at hother
      cases hother
    · intro other s' hs'
      rw [hself]
      by_cases heq : other = id
      · subst heq
        rw [hs] at hs'
        cases hs'
        exact ⟨_, if_pos rfl, rfl, rfl, fun _ => rfl⟩
      · exact ⟨s', (if_neg heq).trans hs', .refl s'⟩
    · intro hn other
      have hmem : other ∈ ((n.modifySession id Session.halt).unlist id).sessions
          ↔ other ∈ n.sessions ∧ other ≠ id := by
        refine List.mem_filter.trans ?_
        rw [decide_eq_true_iff]
        rfl
      rw [hmem, hn other, isOpen, isOpen, hself]
      by_cases heq : other = id
      · simp [heq, Session.halt]
      · simp [heq]
    · exact List.filter_sublist
    · rfl
  · intro _ hr entry hentry
    obtain ⟨hold, hne⟩ := List.mem_filter.mp hentry
    exact List.mem_filter.mpr ⟨hr entry hold, hne⟩

theorem stop_unnotified (n : PeerNetwork) (id : Nat) (reason : StopReason) (reconnect : Bool) :
    n.stop id reason false reconnect
      = if n.isOpen id then n.modifySession id Session.halt else n := rfl

theorem stop_notified (n : PeerNetwork) (id : Nat) (reason : StopReason) (reconnect : Bool) :
    n.stop id reason true reconnect
      = if n.isOpen id then (n.modifySession id Session.halt).sessionStopped id reason reconnect
        else n := rfl

/-- What stopping does to the session objects; a stopped one stays as it is. -/
theorem objects_stop (n : PeerNetwork) (id : Nat) (reason : StopReason) (reconnect : Bool)
    (other : Nat) :
    (n.stop id reason true reconnect).objects other
      = if other = id then (n.objects id).map Session.halt else n.objects other := by
  rw [stop_notified]
  by_cases hopen : n.isOpen id = true
  · rw [if_pos hopen, sessionStopped, objects_releaseTarget]
    exact objects_modifySession n id Session.halt other
  rw [if_neg hopen]
  split_ifs with heq
  · rw [heq]
    cases hs : n.objects id with
    | none => rfl
    | some s =>
        have hstopped : s.stopped = true := by
          by_contra hne
          exact hopen (isOpen_eq_true.mpr ⟨s, hs, Bool.not_eq_true _ |>.mp hne⟩)
        rw [Option.map_some, Session.halt, ← hstopped]
  · rfl

/-- Stopping a session takes it off both tables. -/
theorem quiet_stop (n : PeerNetwork) (id : Nat) (reason : StopReason) (reconnect : Bool) :
    Quiet n (n.stop id reason true reconnect) := by
  rw [stop_notified]
  by_cases hopen : n.isOpen id = true
  swap
  · rw [if_neg hopen]
    exact .refl n
  rw [if_pos hopen]
  obtain ⟨s, hs, -⟩ := isOpen_eq_true.mp hopen
  refine Quiet.trans (quiet_halt hs) (Quiet.trans ?_ (quiet_releaseTarget _ id reconnect))
  exact quiet_of_eq rfl rfl rfl rfl rfl rfl

/-- Once stopped, a session stays as it is. -/
theorem stop_of_not_open (h : n.isOpen id = false) (reason : StopReason)
    (notifyOwner reconnect : Bool) : n.stop id reason notifyOwner reconnect = n := by
  rw [stop, if_neg (by rw [h]; exact Bool.false_ne_true)]

/-! ## Sending -/

theorem quiet_send (κ : Crypto) (n : PeerNetwork) (id : Nat) (type : MessageType)
    (payload : Bytes) : Quiet n (n.send κ id type payload) := by
  rw [send]
  split_ifs
  · exact quiet_stop n id _ true
  · exact quiet_modifySession n id (Session.inner_queue _)

theorem isOpen_of_isReady (h : n.isReady id = true) : n.isOpen id = true := by
  rw [isReady] at h
  rw [isOpen]
  cases hs : n.objects id with
  | none => rw [hs] at h; cases h
  | some s =>
      rw [hs] at h
      exact decide_eq_true (of_decide_eq_true h).2

theorem isOpen_modifySession {f : Session → Session} (hf : Session.Inner f) :
    (n.modifySession id f).isOpen other = n.isOpen other := by
  rw [isOpen, isOpen, objects_modifySession]
  split_ifs with heq
  · rw [heq]
    cases n.objects id with
    | none => rfl
    | some s => rw [Option.map_some, Option.any_some, Option.any_some, (hf s).2]
  · rfl

theorem quiet_sendPing (κ : Crypto) (n : PeerNetwork) (id : Nat) (nonce : UInt64) :
    Quiet n (n.sendPing κ id nonce) := by
  rw [sendPing]
  by_cases hready : n.isReady id = true
  swap
  · rw [if_neg hready]
    exact .refl n
  rw [if_pos hready]
  refine Quiet.trans (quiet_modifySession n id (Session.inner_pinged nonce)) ?_
  refine Quiet.trans (quiet_recordStatus ?_) (quiet_send κ _ id _ _)
  rw [isOpen_modifySession (Session.inner_pinged nonce)]
  exact isOpen_of_isReady hready

theorem quiet_sendMessage (κ : Crypto) (n : PeerNetwork) (id : Nat) (type : MessageType)
    (payload : Bytes) : Quiet n (n.sendMessage κ id type payload) := by
  rw [sendMessage]
  split_ifs
  · exact quiet_send κ n id type payload
  · exact .refl n

/-- What every turn of a loop over the sessions keeps, and its undefined end does, the loop
keeps. -/
theorem eachSession_invariant {I : PeerNetwork → Prop} {f : PeerNetwork → Nat → PeerNetwork}
    (hf : ∀ n id, I n → I (f n id)) (hundefined : ∀ n, I n → I { n with undefined := true })
    (ids : List Nat) : ∀ {n : PeerNetwork}, I n → I (n.eachSession f ids) := by
  induction ids with
  | nil => exact fun hn => hn
  | cons id ids ih =>
      intro n hn
      rw [eachSession]
      split_ifs
      · exact ih (hf n id hn)
      · exact hundefined _ (hf n id hn)

/-- A loop of quiet steps is quiet. -/
theorem quiet_foldl {α : Type} {f : PeerNetwork → α → PeerNetwork} (hf : ∀ n a, Quiet n (f n a))
    (as : List α) : ∀ n, Quiet n (as.foldl f n) := by
  induction as with
  | nil => intro n; exact .refl n
  | cons a as ih => intro n; exact (hf n a).trans (ih (f n a))

/-! ## Reading, writing and timers -/

theorem quiet_headerRead (n : PeerNetwork) (id : Nat) (result : Option Bytes) :
    Quiet n (n.headerRead id result) := by
  have hend := quiet_modifySession n id Session.inner_endRead
  cases result with
  | none => exact hend.trans (quiet_stop _ id _ true)
  | some bytes =>
      rw [headerRead]
      cases deserializeFrameHeader n.config.chainId bytes with
      | error e => exact hend.trans (quiet_stop _ id _ true)
      | ok header => exact hend.trans (quiet_modifySession _ id (Session.inner_startRead _))

theorem quiet_written (n : PeerNetwork) (id : Nat) (ok : Bool) : Quiet n (n.written id ok) := by
  have hend := quiet_modifySession n id Session.inner_endWrite
  rw [written]
  split_ifs
  · exact hend.trans (quiet_modifySession _ id Session.inner_dequeue)
  · exact hend.trans (quiet_stop _ id _ true)

theorem quiet_handshakeTimer (n : PeerNetwork) (id : Nat) : Quiet n (n.handshakeTimer id) := by
  rw [handshakeTimer]
  split_ifs
  · exact .refl n
  · exact quiet_stop n id _ true

theorem quiet_idleTimer (κ : Crypto) (n : PeerNetwork) (id : Nat) :
    Quiet n (n.idleTimer κ id) := by
  rw [idleTimer]
  split_ifs
  · have hreserved : Quiet n n.reservePingNonce := quiet_of_eq rfl rfl rfl rfl rfl rfl
    refine hreserved.trans ?_
    exact (quiet_modifySession _ id (Session.inner_watch _)).trans (quiet_sendPing κ _ id _)
  · exact .refl n

theorem quiet_pongTimer (n : PeerNetwork) (id : Nat) (nonce : UInt64) :
    Quiet n (n.pongTimer id nonce) := by
  rw [pongTimer]
  split_ifs
  · exact quiet_stop n id _ true
  · exact .refl n

/-- At most the status of the session itself is written. -/
theorem calm_handlePong (n : PeerNetwork) (id : Nat) (s : Session) (nonce : UInt64) :
    Calm n (n.handlePong id s nonce) := by
  have hmatch : Calm n (n.matchPong id s nonce) := by
    rw [matchPong]
    split_ifs
    · refine Calm.trans (quiet_modifySession n id (Session.inner_ponged nonce)).toCalm ?_
      exact (calm_recordStatus _ id).trans (quiet_emit _ _).toCalm
    · exact (quiet_emit n _).toCalm
  rw [handlePong]
  split_ifs
  · exact hmatch.trans (quiet_modifySession _ id (Session.inner_watch none)).toCalm
  · exact hmatch

/-- An open session may be recorded, and an unmatched `PONG` records nothing. -/
theorem quiet_handlePong {s : Session} {nonce : UInt64}
    (h : n.isOpen id = true ∨ s.lastPingNonce ≠ some nonce) :
    Quiet n (n.handlePong id s nonce) := by
  have hmatch : Quiet n (n.matchPong id s nonce) := by
    rw [matchPong]
    split_ifs with hlast
    · refine Quiet.trans (quiet_modifySession n id (Session.inner_ponged nonce)) ?_
      refine Quiet.trans (quiet_recordStatus ?_) (quiet_emit _ _)
      rw [isOpen_modifySession (Session.inner_ponged nonce)]
      exact h.resolve_right (not_not.mpr hlast)
    · exact quiet_emit n _
  rw [handlePong]
  split_ifs
  · exact hmatch.trans (quiet_modifySession _ id (Session.inner_watch none))
  · exact hmatch

/-! ## Connections -/

theorem quiet_acceptNext (n : PeerNetwork) : Quiet n n.acceptNext := by
  rw [acceptNext]
  split_ifs
  · exact .refl n
  · exact quiet_of_eq rfl rfl rfl rfl rfl rfl
  · exact quiet_of_eq rfl rfl rfl rfl rfl rfl

theorem quiet_beginConnect (n : PeerNetwork) (t : Nat) : Quiet n (n.beginConnect t) := by
  rw [beginConnect]
  cases n.targetObjects t with
  | none => exact .refl n
  | some target =>
      dsimp only
      split_ifs
      · exact .refl n
      · exact quiet_modifyTarget n t _

theorem quiet_addTarget (n : PeerNetwork) (endpoint : Endpoint) :
    Quiet n (n.addTarget endpoint) := by
  rw [addTarget]
  cases n.targets.find? fun entry => entry.1 = endpoint with
  | none =>
      have hnew : Quiet n (n.newTarget endpoint) := quiet_of_eq rfl rfl rfl rfl rfl rfl
      exact hnew.trans (quiet_beginConnect _ _)
  | some entry =>
      dsimp only
      split_ifs
      · exact quiet_beginConnect n entry.2
      · exact .refl n

theorem quiet_stopTargetSession (n : PeerNetwork) (t : Nat) : Quiet n (n.stopTargetSession t) := by
  rw [stopTargetSession]
  cases (n.targetObjects t).bind Target.sessionId with
  | none => exact .refl n
  | some id =>
      dsimp only
      split_ifs
      · exact quiet_stop n id _ false
      · exact .refl n

theorem quiet_removeTarget (n : PeerNetwork) (endpoint : Endpoint) :
    Quiet n (n.removeTarget endpoint) := by
  rw [removeTarget]
  cases n.targets.find? fun entry => entry.1 = endpoint with
  | none => exact quiet_emit n _
  | some entry =>
      have hdisable := quiet_modifyTarget n entry.2 Target.disable
      have hstop := quiet_stopTargetSession (n.modifyTarget entry.2 Target.disable) entry.2
      have herase : ∀ n : PeerNetwork, Quiet n (n.eraseTarget endpoint) :=
        fun n => quiet_of_eq rfl rfl rfl rfl rfl rfl
      exact ((hdisable.trans hstop).trans (herase _)).trans (quiet_emit _ _)

/-! ## The invariant -/

/-- An open session has been greeted with this nonce. -/
def Greeted (n : PeerNetwork) (id : Nat) (nonce : FixedBytes 16) : Prop :=
  ∃ s, n.objects id = some s ∧ s.stopped = false ∧ s.hasNonce nonce = true

/-- What every order of handlers keeps. -/
structure Inv (n : PeerNetwork) : Prop where
  fresh : ∀ id, n.nextSessionId ≤ id → n.objects id = none
  listed : n.Listed
  nodup : n.sessions.Nodup
  unique : ∀ id other nonce, n.Greeted id nonce → n.Greeted other nonce → id = other

/-- The invariant holds, and no loop over the sessions has been cut short. -/
structure Kept (n n' : PeerNetwork) : Prop where
  inv : n'.Inv
  defined : n'.undefined = n.undefined

theorem Calm.greeted (h : Calm n n') {nonce : FixedBytes 16} (hg : n'.Greeted id nonce) :
    n.Greeted id nonce := by
  obtain ⟨s', hs', hopen, hnonce⟩ := hg
  cases hs : n.objects id with
  | none =>
      rw [h.absent id hs] at hs'
      cases hs'
  | some s =>
      obtain ⟨s'', hs'', hlater⟩ := h.later id s hs
      rw [hs'] at hs''
      cases hs''
      refine ⟨s, hs, ?_, ?_⟩
      · rw [← Bool.not_eq_true]
        intro hstopped
        rw [hlater.stopped hstopped] at hopen
        cases hopen
      · rw [Session.hasNonce, ← hlater.remoteHello]
        exact hnonce

theorem Calm.inv (h : Calm n n') (hn : n.Inv) : n'.Inv where
  fresh id hid := h.absent id (hn.fresh id (h.next ▸ hid))
  listed := h.listed hn.listed
  nodup := hn.nodup.sublist h.sublist
  unique id other nonce hid hother := hn.unique id other nonce (h.greeted hid) (h.greeted hother)

theorem Quiet.inv (h : Quiet n n') (hn : n.Inv) : n'.Inv := h.toCalm.inv hn

theorem Calm.kept (h : Calm n n') (hn : n.Inv) : Kept n n' := ⟨h.inv hn, h.defined⟩

theorem Quiet.kept (h : Quiet n n') (hn : n.Inv) : Kept n n' := h.toCalm.kept hn

theorem Kept.refl (hn : n.Inv) : Kept n n := ⟨hn, rfl⟩

theorem Kept.calm (h : Kept n n') (h' : Calm n' n'') : Kept n n'' :=
  ⟨h'.inv h.inv, h'.defined.trans h.defined⟩

theorem Kept.quiet (h : Kept n n') (h' : Quiet n' n'') : Kept n n'' := h.calm h'.toCalm

/-- Other fields are free. -/
theorem Inv.of_eq (hn : n.Inv) (hnext : n'.nextSessionId = n.nextSessionId)
    (hobjects : n'.objects = n.objects) (hsessions : n'.sessions = n.sessions) : n'.Inv := by
  obtain ⟨hfresh, hlisted, hnodup, hunique⟩ := hn
  refine ⟨?_, ?_, ?_, ?_⟩
  · rw [hnext, hobjects]
    exact hfresh
  · intro id
    rw [hsessions, isOpen, hobjects]
    exact hlisted id
  · rw [hsessions]
    exact hnodup
  · intro id other nonce
    rw [Greeted, Greeted, hobjects]
    exact hunique id other nonce

/-! ## Creating a session -/

theorem inv_addSession (hn : n.Inv) {session : Session} (hnew : session.remoteHello = none)
    (hopen : session.stopped = false) : (n.addSession session).Inv := by
  have hobjects : ∀ id, (n.addSession session).objects id
      = if id = n.nextSessionId then some session else n.objects id :=
    fun id => Function.update_apply ..
  have hgreeted : ∀ id nonce, (n.addSession session).Greeted id nonce → n.Greeted id nonce := by
    rintro id nonce ⟨s, hs, hstopped, hnonce⟩
    rw [hobjects] at hs
    split_ifs at hs with heq
    · cases hs
      rw [Session.hasNonce, hnew] at hnonce
      cases hnonce
    · exact ⟨s, hs, hstopped, hnonce⟩
  refine ⟨?_, ?_, ?_, ?_⟩
  · intro id hid
    have hlt : n.nextSessionId + 1 ≤ id := hid
    rw [hobjects, if_neg (by omega)]
    exact hn.fresh id (by omega)
  · intro id
    have hmem : id ∈ (n.addSession session).sessions ↔ id ∈ n.sessions ∨ id = n.nextSessionId := by
      refine List.mem_append.trans ?_
      rw [List.mem_singleton]
    rw [hmem, hn.listed id, isOpen, isOpen, hobjects]
    by_cases heq : id = n.nextSessionId
    · simp [heq, hopen]
    · simp [heq]
  · have hnew : n.nextSessionId ∉ n.sessions := by
      rw [hn.listed, isOpen, hn.fresh _ (le_refl _)]
      exact Bool.false_ne_true
    exact List.nodup_append.mpr ⟨hn.nodup, List.nodup_singleton _, by
      rintro id hid other hother rfl
      rw [List.mem_singleton.mp hother] at hid
      exact hnew hid⟩
  · intro id other nonce hid hother
    exact hn.unique id other nonce (hgreeted id nonce hid) (hgreeted other nonce hother)

theorem recorded_addSession (hr : n.Recorded) (session : Session) :
    (n.addSession session).Recorded :=
  fun entry hentry => List.mem_append_left _ (hr entry hentry)

theorem isOpen_addSession {session : Session} (hopen : session.stopped = false) :
    (n.addSession session).isOpen n.nextSessionId = true :=
  isOpen_eq_true.mpr ⟨session, Function.update_self .., hopen⟩

theorem quiet_startSession (κ : Crypto) (hopen : n.isOpen id = true) :
    Quiet n (n.startSession κ id) :=
  (((quiet_recordStatus hopen).trans (quiet_emit _ _)).trans (quiet_send κ _ id _ _)).trans
    (quiet_modifySession _ id (Session.inner_startRead _))

/-- A new session keeps the invariant and is recorded. -/
theorem keeps_createSession (κ : Crypto) (hn : n.Inv) (direction : PeerDirection)
    (endpoint : Option Endpoint) (target : Option Nat) :
    Kept n (n.createSession κ direction endpoint target) ∧
      (n.Recorded → (n.createSession κ direction endpoint target).Recorded) := by
  have hadd : (n.addSession { direction, endpoint, target }).Inv := inv_addSession hn rfl rfl
  have hstart := quiet_startSession κ (n := n.addSession { direction, endpoint, target })
    (isOpen_addSession rfl)
  exact ⟨⟨hstart.inv hadd, hstart.defined⟩,
    fun hr => hstart.recorded hadd.listed (recorded_addSession hr _)⟩

/-! ## The handshake -/

theorem quiet_adoptTarget (n : PeerNetwork) (id : Nat) (target : Option Nat) :
    Quiet n (n.adoptTarget id target) := by
  cases target with
  | none => exact .refl n
  | some t =>
      exact (quiet_modifySession n id (Session.inner_adopt t)).trans (quiet_modifyTarget _ t _)

theorem quiet_resetDelay (n : PeerNetwork) (id : Nat) : Quiet n (n.resetDelay id) := by
  rw [resetDelay]
  cases n.targetOf id with
  | none => exact .refl n
  | some t => exact quiet_modifyTarget n t _

theorem quiet_yieldTo (n : PeerNetwork) (id other : Nat) : Quiet n (n.yieldTo id other) := by
  rw [yieldTo]
  refine Quiet.trans ?_ (quiet_stop _ id _ false)
  split_ifs
  · exact quiet_adoptTarget n other _
  · exact .refl n

theorem quiet_replace (n : PeerNetwork) (id other : Nat) : Quiet n (n.replace id other) := by
  rw [replace]
  refine Quiet.trans ?_ (quiet_stop _ other _ false)
  split_ifs
  · exact quiet_adoptTarget n id _
  · exact .refl n

theorem quiet_completeHandshake (n : PeerNetwork) (id : Nat) (nonce : FixedBytes 16) :
    Quiet n (n.completeHandshake id nonce).1 := by
  rw [completeHandshake]
  cases n.duplicateOf id nonce with
  | none => exact quiet_resetDelay n id
  | some other =>
      dsimp only
      split_ifs
      · exact (quiet_replace n id other).trans (quiet_resetDelay _ id)
      · exact quiet_yieldTo n id other

theorem isOpen_congr (h : n'.objects = n.objects) (id : Nat) : n'.isOpen id = n.isOpen id := by
  rw [isOpen, isOpen, h]

theorem isOpen_halt (n : PeerNetwork) (id other : Nat) :
    (n.modifySession id Session.halt).isOpen other = (n.isOpen other && other ≠ id) := by
  rw [isOpen, isOpen, objects_modifySession]
  by_cases heq : other = id
  · rw [if_pos heq]
    cases n.objects id with
    | none => simp [heq]
    | some s => simp [heq, Session.halt]
  · simp [heq]

/-- What stopping does to the open sessions. -/
theorem isOpen_stop (n : PeerNetwork) (id : Nat) (reason : StopReason)
    (notifyOwner reconnect : Bool) (other : Nat) :
    (n.stop id reason notifyOwner reconnect).isOpen other = (n.isOpen other && other ≠ id) := by
  rw [stop]
  by_cases hopen : n.isOpen id = true
  · rw [if_pos hopen]
    cases notifyOwner with
    | true =>
        refine (isOpen_congr ?_ other).trans (isOpen_halt n id other)
        exact objects_releaseTarget ..
    | false => exact isOpen_halt n id other
  · rw [if_neg hopen]
    by_cases heq : other = id
    · rw [heq, Bool.not_eq_true _ |>.mp hopen]
      rfl
    · simp [heq]

theorem isOpen_adoptTarget (n : PeerNetwork) (id : Nat) (target : Option Nat) (other : Nat) :
    (n.adoptTarget id target).isOpen other = n.isOpen other := by
  cases target with
  | none => rfl
  | some t => exact isOpen_modifySession (Session.inner_adopt t)

theorem isOpen_resetDelay (n : PeerNetwork) (id other : Nat) :
    (n.resetDelay id).isOpen other = n.isOpen other := by
  rw [resetDelay]
  cases n.targetOf id with
  | none => rfl
  | some t => rfl

theorem isOpen_yieldTo (n : PeerNetwork) (id other x : Nat) :
    (n.yieldTo id other).isOpen x = (n.isOpen x && x ≠ id) := by
  rw [yieldTo, isOpen_stop]
  split_ifs
  · rw [isOpen_adoptTarget]
  · rfl

theorem isOpen_replace (n : PeerNetwork) (id other x : Nat) :
    (n.replace id other).isOpen x = (n.isOpen x && x ≠ other) := by
  rw [replace, isOpen_stop]
  split_ifs
  · rw [isOpen_adoptTarget]
  · rfl

theorem Greeted.isOpen {nonce : FixedBytes 16} (h : n.Greeted id nonce) : n.isOpen id = true := by
  obtain ⟨s, hs, hopen, -⟩ := h
  exact isOpen_eq_true.mpr ⟨s, hs, hopen⟩

/-- The loop looks at other sessions only. -/
theorem duplicateOf_modifySession (n : PeerNetwork) (id : Nat) (f : Session → Session)
    (nonce : FixedBytes 16) :
    (n.modifySession id f).duplicateOf id nonce = n.duplicateOf id nonce := by
  rw [duplicateOf, duplicateOf]
  refine congrArg (fun p => n.sessions.find? p) (funext fun other => ?_)
  rw [objects_modifySession]
  by_cases heq : other = id
  · simp [heq]
  · rw [if_neg heq]

theorem directed_modifySession {f : Session → Session} (hf : ∀ s, (f s).direction = s.direction)
    (other : Nat) (direction : PeerDirection) :
    (n.modifySession id f).directed other direction = n.directed other direction := by
  rw [directed, directed, objects_modifySession]
  split_ifs with heq
  · rw [heq]
    cases n.objects id with
    | none => rfl
    | some s => rw [Option.map_some, Option.any_some, Option.any_some, hf s]
  · rfl

/-- The session the loop stops at is another open one with the same nonce. -/
theorem duplicateOf_eq_some (hn : n.Listed) {nonce : FixedBytes 16}
    (h : n.duplicateOf id nonce = some other) : other ≠ id ∧ n.Greeted other nonce := by
  rw [duplicateOf] at h
  have hmem := List.mem_of_find?_eq_some h
  have hfound := List.find?_some h
  obtain ⟨hne, hnonce⟩ := of_decide_eq_true hfound
  obtain ⟨s, hs, hopen⟩ := isOpen_eq_true.mp ((hn other).mp hmem)
  rw [hs] at hnonce
  exact ⟨hne, s, hs, hopen, hnonce⟩

/-- The loop passes every session only if there is none. -/
theorem duplicateOf_eq_none (hn : n.Listed) {nonce : FixedBytes 16}
    (h : n.duplicateOf id nonce = none) : n.Greeted other nonce → other = id := by
  rintro ⟨s, hs, hopen, hnonce⟩
  by_contra hne
  have hmem := (hn other).mpr (isOpen_eq_true.mpr ⟨s, hs, hopen⟩)
  refine List.find?_eq_none.mp h other hmem (decide_eq_true ⟨hne, ?_⟩)
  rw [hs]
  exact hnonce

/-- After the handshake the candidate is stopped, or alone with its nonce. -/
theorem alone_of_completeHandshake (hn : n.Listed) {nonce : FixedBytes 16}
    (hunique : ∀ x y, x ≠ id → y ≠ id → n.Greeted x nonce → n.Greeted y nonce → x = y) :
    (n.completeHandshake id nonce).1.isOpen id = true →
      ∀ x, (n.completeHandshake id nonce).1.Greeted x nonce → x = id := by
  have hcalm := (quiet_completeHandshake n id nonce).toCalm
  intro hopen x hx
  have hold := hcalm.greeted hx
  have hxopen := hx.isOpen
  rw [completeHandshake] at hopen hxopen
  cases hdup : n.duplicateOf id nonce with
  | none => exact duplicateOf_eq_none hn hdup hold
  | some other =>
      obtain ⟨hne, hother⟩ := duplicateOf_eq_some hn hdup
      rw [hdup] at hopen hxopen
      dsimp only at hopen hxopen
      by_contra hxid
      split_ifs at hopen hxopen
      · -- the other session, the only one left, has been replaced
        rw [hunique x other hxid hne hold hother, isOpen_resetDelay, isOpen_replace] at hxopen
        simp at hxopen
      · rw [isOpen_yieldTo] at hopen
        simp at hopen

theorem objects_greet (n : PeerNetwork) (id : Nat) (hello : HelloPayload) (other : Nat) :
    (n.greet id hello).objects other
      = if other = id then (n.objects id).map (Session.greet hello) else n.objects other :=
  objects_modifySession ..

theorem isOpen_greet (n : PeerNetwork) (id : Nat) (hello : HelloPayload) (other : Nat) :
    (n.greet id hello).isOpen other = n.isOpen other := by
  rw [isOpen, isOpen, objects_greet]
  split_ifs with heq
  · rw [heq]
    cases n.objects id with
    | none => rfl
    | some s => rfl
  · rfl

theorem listed_greet (hn : n.Listed) (hello : HelloPayload) : (n.greet id hello).Listed := by
  intro other
  rw [isOpen_greet]
  exact hn other

/-- Another session is greeted as before, and this one with the nonce of its `HELLO`. -/
theorem greeted_greet {hello : HelloPayload} {nonce : FixedBytes 16}
    (h : (n.greet id hello).Greeted other nonce) :
    (other = id ∧ nonce = hello.sessionNonce) ∨ (other ≠ id ∧ n.Greeted other nonce) := by
  obtain ⟨s, hs, hopen, hnonce⟩ := h
  rw [objects_greet] at hs
  split_ifs at hs with heq
  · obtain ⟨s', -, rfl⟩ := Option.map_eq_some_iff.mp hs
    exact Or.inl ⟨heq, (of_decide_eq_true hnonce).symm⟩
  · exact Or.inr ⟨heq, s, hs, hopen, hnonce⟩

theorem kept_completeHandshake (hn : n.Inv) (id : Nat) (hello : HelloPayload) :
    Kept n ((n.greet id hello).completeHandshake id hello.sessionNonce).1 := by
  have hlisted : (n.greet id hello).Listed := listed_greet hn.listed hello
  have hcalm := (quiet_completeHandshake (n.greet id hello) id hello.sessionNonce).toCalm
  have hothers : ∀ x y, x ≠ id → y ≠ id → (n.greet id hello).Greeted x hello.sessionNonce →
      (n.greet id hello).Greeted y hello.sessionNonce → x = y := by
    intro x y hx hy hgx hgy
    exact hn.unique x y _ ((greeted_greet hgx).resolve_left fun h => hx h.1).2
      ((greeted_greet hgy).resolve_left fun h => hy h.1).2
  have halone := alone_of_completeHandshake hlisted hothers
  refine ⟨⟨?_, hcalm.listed hlisted, hn.nodup.sublist hcalm.sublist, ?_⟩, hcalm.defined⟩
  · intro other hother
    refine hcalm.absent other ?_
    have hnone := hn.fresh other (hcalm.next ▸ hother)
    rw [objects_greet]
    split_ifs with heq
    · rw [← heq, hnone]
      rfl
    · exact hnone
  · intro x y nonce hx hy
    rcases greeted_greet (hcalm.greeted hx) with ⟨rfl, rfl⟩ | ⟨hxid, hgx⟩
    · exact (halone hx.isOpen y hy).symm
    rcases greeted_greet (hcalm.greeted hy) with ⟨rfl, rfl⟩ | ⟨hyid, hgy⟩
    · exact halone hy.isOpen x hx
    exact hn.unique x y nonce hgx hgy

theorem calm_welcome (n : PeerNetwork) (id : Nat) : Calm n (n.welcome id) :=
  ((quiet_modifySession n id Session.inner_welcome).toCalm.trans (calm_recordStatus _ id)).trans
    (quiet_emit _ _).toCalm

theorem quiet_welcome (hopen : n.isOpen id = true) : Quiet n (n.welcome id) := by
  refine ((quiet_modifySession n id Session.inner_welcome).trans (quiet_recordStatus ?_)).trans
    (quiet_emit _ _)
  rw [isOpen_modifySession Session.inner_welcome]
  exact hopen

theorem kept_handleHello (hn : n.Inv) (id : Nat) (payload : Bytes) :
    Kept n (n.handleHello id payload).1 := by
  rw [handleHello]
  cases n.checkHello payload with
  | error reason => exact (quiet_stop n id reason true).kept hn
  | ok hello =>
      have hdone := kept_completeHandshake hn id hello
      dsimp only
      split_ifs
      · exact hdone.calm (calm_welcome _ id)
      · exact hdone

theorem quiet_deliver (n : PeerNetwork) (id : Nat) (type : MessageType) (payload : Bytes) :
    Quiet n (n.deliver id type payload) :=
  quiet_of_eq rfl rfl rfl rfl rfl rfl

theorem kept_handleMessage (κ : Crypto) (hn : n.Inv) (id : Nat) (s : Session) (type : MessageType)
    (payload : Bytes) : Kept n (n.handleMessage κ id s type payload).1 := by
  rw [handleMessage]
  split_ifs
  · exact (quiet_stop n id _ true).kept hn
  · exact kept_handleHello hn id payload
  · exact (quiet_stop n id _ true).kept hn
  · exact (quiet_send κ n id _ _).kept hn
  · exact (calm_handlePong n id s _).kept hn
  · exact (quiet_deliver n id type payload).kept hn
  · exact (quiet_stop n id _ true).kept hn

theorem kept_payloadRead (κ : Crypto) (hn : n.Inv) (id : Nat) (s : Session) (header : FrameHeader)
    (result : Option Bytes) : Kept n (n.payloadRead κ id s header result) := by
  have hend := quiet_modifySession n id Session.inner_endRead
  cases result with
  | none => exact (hend.trans (quiet_stop _ id _ true)).kept hn
  | some payload =>
      have hhandled := kept_handleMessage κ (hend.inv hn) id s header.type payload
      have hdone : Kept n ((n.modifySession id Session.endRead).handleMessage κ id s header.type
          payload).1 := ⟨hhandled.inv, hhandled.defined.trans hend.defined⟩
      rw [payloadRead]
      dsimp only
      split_ifs
      · exact (hend.trans (quiet_stop _ id _ true)).kept hn
      · exact hdone.quiet (quiet_modifySession _ id (Session.inner_startRead _))
      · exact hdone

/-! ## The shutdown -/

theorem stopAll_cons (n : PeerNetwork) (id : Nat) (ids : List Nat) :
    n.stopAll (id :: ids) = (n.stop id .nodeShutdown false true).stopAll ids := rfl

/-- The loop of the shutdown stops exactly the sessions it names. -/
theorem isOpen_stopAll (ids : List Nat) :
    ∀ (n : PeerNetwork) (id : Nat), (n.stopAll ids).isOpen id = (n.isOpen id && id ∉ ids) := by
  induction ids with
  | nil => intro n id; simp [stopAll]
  | cons first ids ih =>
      intro n id
      rw [stopAll_cons, ih, isOpen_stop]
      by_cases hfirst : id = first
      · simp [hfirst]
      · simp [hfirst]

theorem objects_stopAll (ids : List Nat) :
    ∀ (n : PeerNetwork) (id : Nat), n.objects id = none → (n.stopAll ids).objects id = none := by
  induction ids with
  | nil => intro n id h; exact h
  | cons first ids ih =>
      intro n id h
      rw [stopAll_cons]
      refine ih _ id ?_
      rw [stop_unnotified]
      split_ifs
      · rw [objects_modifySession]
        split_ifs with heq
        · rw [← heq, h]
          rfl
        · exact h
      · exact h

theorem frame_stopAll (ids : List Nat) :
    ∀ n : PeerNetwork, (n.stopAll ids).nextSessionId = n.nextSessionId ∧
      (n.stopAll ids).undefined = n.undefined := by
  induction ids with
  | nil => intro n; exact ⟨rfl, rfl⟩
  | cons first ids ih =>
      intro n
      rw [stopAll_cons, (ih _).1, (ih _).2, stop_unnotified]
      split_ifs
      · exact ⟨rfl, rfl⟩
      · exact ⟨rfl, rfl⟩

/-- No session is open after the shutdown. -/
theorem kept_shutdown (hn : n.Inv) : Kept n n.shutdown := by
  rw [shutdown]
  have hstopped := frame_stopAll n.sessions { n with stopping := true, accepting := false }
  suffices hinv : Inv { ({ n with stopping := true, accepting := false }.stopAll n.sessions) with
      sessions := [] } from
    Kept.quiet ⟨hinv, hstopped.2⟩ (quiet_foldl (fun n (entry : Endpoint × Nat) =>
      quiet_modifyTarget n entry.2 Target.disable) _ _)
  have hclosed : ∀ id,
      ({ n with stopping := true, accepting := false }.stopAll n.sessions).isOpen id = false := by
    intro id
    refine (isOpen_stopAll n.sessions _ id).trans ?_
    show (n.isOpen id && id ∉ n.sessions) = false
    by_cases hmem : id ∈ n.sessions
    · simp [hmem]
    · rw [Bool.eq_false_iff.mpr (mt (hn.listed id).mpr hmem)]
      rfl
  refine ⟨?_, ?_, List.nodup_nil, ?_⟩
  · intro id hid
    refine objects_stopAll n.sessions _ id (hn.fresh id ?_)
    rw [show n.nextSessionId = _ from hstopped.1.symm]
    exact hid
  · intro id
    refine ⟨fun h => absurd h List.not_mem_nil, fun h => ?_⟩
    exact absurd (show _ = true from h) (Bool.eq_false_iff.mp (hclosed id))
  · intro id other nonce hid
    exact absurd (show _ = true from hid.isOpen) (Bool.eq_false_iff.mp (hclosed id))

/-! ## Every handler -/

theorem keeps_openAccepted (κ : Crypto) (hn : n.Inv) (result : Option (Option Endpoint)) :
    Kept n (n.openAccepted κ result) ∧ (n.Recorded → (n.openAccepted κ result).Recorded) := by
  match result with
  | none =>
      rw [openAccepted]
      split_ifs
      · exact ⟨.refl hn, fun h => h⟩
      · exact ⟨(quiet_emit n _).kept hn, (quiet_emit n _).recorded hn.listed⟩
  | some none => exact keeps_createSession κ hn _ _ _
  | some (some remote) =>
      rw [openAccepted]
      split_ifs
      · exact ⟨(quiet_emit n _).kept hn, (quiet_emit n _).recorded hn.listed⟩
      · exact keeps_createSession κ hn _ _ _

theorem keeps_connected (κ : Crypto) (hn : n.Inv) (t : Nat) (target : Target)
    (result : Option (Option Endpoint)) :
    Kept n (n.connected κ t target result) ∧
      (n.Recorded → (n.connected κ t target result).Recorded) := by
  have hidle := quiet_modifyTarget n t fun target => { target with connecting := false }
  have hquiet : ∀ {n'}, Quiet n n' → Kept n n' ∧ (n.Recorded → n'.Recorded) :=
    fun h => ⟨h.kept hn, h.recorded hn.listed⟩
  cases result with
  | none =>
      rw [connected]
      split_ifs
      · exact hquiet ((hidle.trans (quiet_emit _ _)).trans (quiet_scheduleReconnect _ t))
      · exact hquiet hidle
  | some endpoint =>
      rw [connected]
      split_ifs
      · exact hquiet hidle
      · obtain ⟨hkept, hrec⟩ := keeps_createSession κ (hidle.inv hn) .outbound endpoint (some t)
        have hset := quiet_modifyTarget ((n.modifyTarget t fun target =>
            { target with connecting := false }).createSession κ .outbound endpoint (some t)) t
          fun target => { target with sessionId := some n.nextSessionId }
        exact ⟨Kept.quiet ⟨hkept.inv, hkept.defined.trans hidle.defined⟩ hset,
          fun hr => hset.recorded hkept.inv.listed (hrec hr)⟩

/-- The handlers that send in a loop over the sessions. -/
def NetworkEvent.loops : NetworkEvent → Bool
  | .pingAll _ => true
  | .broadcast _ _ _ => true
  | _ => false

/-- What a handler keeps that does not loop over the sessions. -/
theorem kept_step (κ : Crypto) (hn : n.Inv) {e : NetworkEvent} (h : e.loops = false) :
    Kept n (n.step κ e) := by
  cases e with
  | accepted result =>
      rw [step]
      split_ifs
      · have hidle : Inv { n with accepting := false } := hn.of_eq rfl rfl rfl
        obtain ⟨hkept, -⟩ := keeps_openAccepted κ hidle result
        exact Kept.quiet ⟨hkept.inv, hkept.defined⟩ (quiet_acceptNext _)
      · exact .refl hn
  | acceptRetry =>
      rw [step]
      split_ifs
      · have hidle : Kept n { n with acceptRetryArmed := false } := ⟨hn.of_eq rfl rfl rfl, rfl⟩
        exact hidle.quiet (quiet_acceptNext _)
      · exact .refl hn
  | connected t result =>
      rw [step]
      cases n.targetObjects t with
      | none => exact .refl hn
      | some target =>
          dsimp only
          split_ifs
          · exact (keeps_connected κ hn t target result).1
          · exact .refl hn
  | reconnectTimer t =>
      rw [step]
      split_ifs
      · exact ((quiet_modifyTarget n t _).trans (quiet_beginConnect _ t)).kept hn
      · exact .refl hn
  | headerRead id result =>
      rw [step]
      cases n.objects id with
      | none => exact .refl hn
      | some s =>
          dsimp only
          split_ifs
          · exact (quiet_headerRead n id result).kept hn
          · exact .refl hn
  | payloadRead id result =>
      rw [step]
      cases n.objects id with
      | none => exact .refl hn
      | some s =>
          dsimp only
          cases s.reading with
          | nothing => exact .refl hn
          | header => exact .refl hn
          | payload header =>
              dsimp only
              split_ifs
              · exact kept_payloadRead κ hn id s header result
              · exact .refl hn
  | written id ok =>
      rw [step]
      split_ifs
      · exact (quiet_written n id ok).kept hn
      · exact .refl hn
  | handshakeTimer id => exact (quiet_handshakeTimer n id).kept hn
  | idleTimer id => exact (quiet_idleTimer κ n id).kept hn
  | pongTimer id nonce => exact (quiet_pongTimer n id nonce).kept hn
  | connect address port =>
      rw [step]
      cases n.checkEndpoint address port with
      | none => exact .refl hn
      | some endpoint => exact (quiet_addTarget n endpoint).kept hn
  | disconnect address port =>
      rw [step]
      cases n.checkEndpoint address port with
      | none => exact .refl hn
      | some endpoint => exact (quiet_removeTarget n endpoint).kept hn
  | reservePing => exact ⟨hn.of_eq rfl rfl rfl, rfl⟩
  | pingAll nonce => cases h
  | updateTip height tip => exact ⟨hn.of_eq rfl rfl rfl, rfl⟩
  | sendMessage id type payload =>
      rw [step]
      split_ifs
      · exact (quiet_sendMessage κ n id type payload).kept hn
      · exact .refl hn
  | broadcast type payload excludedPeer => cases h
  | shutdown => exact kept_shutdown hn

/-- Every handler keeps the invariant. -/
theorem inv_step (κ : Crypto) (hn : n.Inv) (e : NetworkEvent) : (n.step κ e).Inv := by
  have hundefined : ∀ m : PeerNetwork, m.Inv → Inv { m with undefined := true } :=
    fun m hm => hm.of_eq rfl rfl rfl
  cases h : e.loops with
  | false => exact (kept_step κ hn h).inv
  | true =>
      cases e with
      | pingAll nonce =>
          exact eachSession_invariant (fun m id hm => (quiet_sendPing κ m id nonce).inv hm)
            hundefined _ hn
      | broadcast type payload excludedPeer =>
          refine eachSession_invariant (fun m id hm => ?_) hundefined _ hn
          split_ifs
          · exact hm
          · exact (quiet_sendMessage κ m id type payload).inv hm
      | _ => cases h

/-! ## Loops that come to their end -/

/-- A turn of a loop over the sessions that stops none of them. -/
structure Spares (id : Nat) (n n' : PeerNetwork) : Prop where
  config : n'.config = n.config
  sessions : n'.sessions = n.sessions
  defined : n'.undefined = n.undefined
  others : ∀ other, other ≠ id → n'.objects other = n.objects other

theorem Spares.refl (id : Nat) (n : PeerNetwork) : Spares id n n := ⟨rfl, rfl, rfl, fun _ _ => rfl⟩

theorem Spares.trans (h : Spares id n n') (h' : Spares id n' n'') : Spares id n n'' where
  config := h'.config.trans h.config
  sessions := h'.sessions.trans h.sessions
  defined := h'.defined.trans h.defined
  others other hne := (h'.others other hne).trans (h.others other hne)

theorem spares_modifySession (n : PeerNetwork) (id : Nat) (f : Session → Session) :
    Spares id n (n.modifySession id f) :=
  ⟨rfl, rfl, rfl, fun other hne => by rw [objects_modifySession, if_neg hne]⟩

theorem spares_recordStatus (n : PeerNetwork) (id : Nat) : Spares id n (n.recordStatus id) := by
  rw [recordStatus]
  cases n.objects id with
  | none => exact .refl id n
  | some s => exact ⟨rfl, rfl, rfl, fun _ _ => rfl⟩

/-- If the session sends this, it is not stopped for it. -/
def Fits (κ : Crypto) (type : MessageType) (payload : Bytes) (n : PeerNetwork) (id : Nat) : Prop :=
  n.isReady id = true → ¬ n.overflows κ id type payload

section fits
variable {type : MessageType} {payload : Bytes}

theorem Spares.fits (h : Spares id n n') (hne : other ≠ id) (hfits : Fits κ type payload n other) :
    Fits κ type payload n' other := by
  rw [Fits, isReady, overflows, h.config, h.others other hne]
  exact hfits

theorem spares_send (h : ¬ n.overflows κ id type payload) :
    Spares id n (n.send κ id type payload) := by
  rw [send, if_neg h]
  exact spares_modifySession n id _

theorem spares_sendMessage (h : Fits κ type payload n id) :
    Spares id n (n.sendMessage κ id type payload) := by
  rw [sendMessage]
  split_ifs with hready
  · exact spares_send (h hready)
  · exact .refl id n

/-- The nonce that is noted takes no room in the queue. -/
theorem overflows_pinged (n : PeerNetwork) (id : Nat) (nonce : UInt64) :
    ((n.modifySession id (Session.pinged nonce)).recordStatus id).overflows κ id type payload
      ↔ n.overflows κ id type payload := by
  have hobjects : ((n.modifySession id (Session.pinged nonce)).recordStatus id).objects id
      = (n.objects id).map (Session.pinged nonce) := by
    refine Eq.trans ?_ ((objects_modifySession n id _ id).trans (if_pos rfl))
    rw [recordStatus]
    split <;> rfl
  have hqueued : ((n.objects id).map (Session.pinged nonce)).map Session.queuedBytes
      = (n.objects id).map Session.queuedBytes := by
    rw [Option.map_map]
    rfl
  have hconfig := ((spares_modifySession n id (Session.pinged nonce)).trans
    (spares_recordStatus _ id)).config
  rw [overflows, overflows, hobjects, hqueued, hconfig]

theorem spares_sendPing {nonce : UInt64} (h : Fits κ .ping (serializePingNonce nonce) n id) :
    Spares id n (n.sendPing κ id nonce) := by
  rw [sendPing]
  split_ifs with hready
  · have hnoted := (spares_modifySession n id (Session.pinged nonce)).trans
      (spares_recordStatus _ id)
    exact hnoted.trans (spares_send (mt (overflows_pinged n id nonce).mp (h hready)))
  · exact .refl id n

end fits

/-- A loop whose turns stop no session comes to its end. -/
theorem defined_eachSession {f : PeerNetwork → Nat → PeerNetwork} {F : PeerNetwork → Nat → Prop}
    (hf : ∀ n id, F n id → Spares id n (f n id))
    (hF : ∀ n n' id other, Spares id n n' → other ≠ id → F n other → F n' other) (ids : List Nat) :
    ∀ {n : PeerNetwork}, ids.Nodup → (∀ id ∈ ids, id ∈ n.sessions ∧ F n id) →
      (n.eachSession f ids).undefined = n.undefined := by
  induction ids with
  | nil => exact fun _ _ => rfl
  | cons id ids ih =>
      intro n hnodup h
      obtain ⟨hnew, hrest⟩ := List.nodup_cons.mp hnodup
      obtain ⟨hlisted, hfits⟩ := h id List.mem_cons_self
      have hspares := hf n id hfits
      rw [eachSession, if_pos (by rw [hspares.sessions]; exact hlisted)]
      refine (ih hrest fun other hother => ?_).trans hspares.defined
      obtain ⟨hstill, hothers⟩ := h other (List.mem_cons_of_mem _ hother)
      have hne : other ≠ id := fun heq => hnew (heq ▸ hother)
      exact ⟨by rw [hspares.sessions]; exact hstill, hF n _ id other hspares hne hothers⟩

/-- A handler is undefined only if it is a loop that stops a session. -/
theorem defined_step (hn : n.Inv) {e : NetworkEvent} (h : n.overruns κ e = false) :
    (n.step κ e).undefined = n.undefined := by
  cases hloops : e.loops with
  | false => exact (kept_step κ hn hloops).defined
  | true =>
      cases e with
      | pingAll nonce =>
          refine defined_eachSession (F := Fits κ .ping (serializePingNonce nonce))
            (fun m id hfits => spares_sendPing hfits)
            (fun m m' id other hspares hne hfits => hspares.fits hne hfits) _ hn.nodup ?_
          intro id hid
          refine ⟨hid, fun hready hover => ?_⟩
          have hnone := List.any_eq_false.mp h id hid
          exact hnone (Bool.and_eq_true_iff.mpr ⟨hready, decide_eq_true hover⟩)
      | broadcast type payload excludedPeer =>
          refine defined_eachSession
            (F := fun m id => some id ≠ excludedPeer → Fits κ type payload m id)
            (fun m id hfits => ?_)
            (fun m m' id other hspares hne hfits hother => hspares.fits hne (hfits hother))
            _ hn.nodup ?_
          · split_ifs with hexcluded
            · exact .refl id m
            · exact spares_sendMessage (hfits hexcluded)
          · intro id hid
            refine ⟨hid, fun hexcluded hready hover => ?_⟩
            have hnone := List.any_eq_false.mp h id hid
            exact hnone (Bool.and_eq_true_iff.mpr
              ⟨Bool.and_eq_true_iff.mpr ⟨decide_eq_true hexcluded, hready⟩, decide_eq_true hover⟩)
      | _ => cases hloops

theorem inv_start (config : PeerNetworkConfig) (sessionNonce : FixedBytes 16) :
    (start config sessionNonce).Inv where
  fresh _ _ := rfl
  listed id := by
    refine ⟨fun h => absurd h List.not_mem_nil, fun h => ?_⟩
    cases h
  nodup := List.nodup_nil
  unique id other nonce hid := by
    obtain ⟨s, hs, -⟩ := hid
    cases hs

/-- Every run keeps it. -/
theorem inv_run (κ : Crypto) (config : PeerNetworkConfig) (sessionNonce : FixedBytes 16)
    (events : List NetworkEvent) : ((start config sessionNonce).run κ events).Inv :=
  Runs.Along.invariant (I := Inv) (fun _ e _ h => inv_step κ h e) Runs.along_true
    (inv_start config sessionNonce)

end PeerNetwork

end BBC
