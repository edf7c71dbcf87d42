/-
# `BBC.Network.Targets` — which configured peers are dialled again

A target of `targets_` is waited for in three ways: a connection attempt is under way,
a session of its own is open, or its reconnect timer is armed.  A target with none of
them is never dialled again, and four handlers leave one behind:

    connect            a new target, and `begin_connect` returns at the peer limit
    reconnect timer    `begin_connect` returns at the peer limit
    HELLO              the closed duplicate has a target, the kept session has one too
    HELLO              the target goes to a session that is already stopped

A stopped session may also hand its target on while the target is being dialled
again.  `strands` is the condition on a state and a handler under which one of these
happens.  In every run without it, and before `stop`, every enabled target is waited for
in one of the three ways, and has at most one session, and none while it is dialled.

Within a handler the invariant is broken for a moment.  `Tended` therefore has two
exceptions: a target that nobody waits for yet, and a session that its target does not
name.
-/
import BBC.Network.Sessions
import BBC.Crypto.Reference

namespace BBC

namespace PeerNetwork

variable {κ : Crypto} {n n' : PeerNetwork} {id other t : Nat} {hole pending : Option Nat}

/-! ## The handlers that leave a target behind -/

/-- `sessions_` has reached the peer limit. -/
def isFull (n : PeerNetwork) : Bool := n.sessions.length ≥ maximumPeerCount

/-- The target of the closed duplicate is left behind: the kept session has a target
already or is stopped, or the closed one was stopped and its target has moved on. -/
def abandons (n : PeerNetwork) (closed kept : Nat) : Bool :=
  (n.targetOf closed).any fun t => (n.targetObjects t).any fun target =>
    target.enabled ∧
      if (n.targetOf kept).isSome then n.isOpen closed = true
      else n.isOpen kept = false ∨
        (n.isOpen closed = false ∧ (target.connecting = true ∨ target.sessionId.isSome = true))

/-- The handshake closes a duplicate and leaves its target behind. -/
def abandonsDuplicate (n : PeerNetwork) (id : Nat) (nonce : FixedBytes 16) : Bool :=
  match n.duplicateOf id nonce with
  | none => false
  | some other =>
      if n.directed id (n.preferred nonce) ∧ ¬ n.directed other (n.preferred nonce) then
        n.abandons other id
      else n.abandons id other

/-- The handler leaves a target behind. -/
def strands (κ : Crypto) (n : PeerNetwork) : NetworkEvent → Bool
  | .connect address port =>
      (n.checkEndpoint address port).any fun endpoint =>
        n.isFull ∧ (n.targets.find? fun entry => entry.1 = endpoint).isNone
  | .reconnectTimer t =>
      (n.targetObjects t).any fun target =>
        n.isFull ∧ target.timerArmed ∧ target.enabled ∧ ¬ target.connecting
          ∧ target.sessionId.isNone
  | .payloadRead id (some payload) =>
      (n.objects id).any fun s =>
        match s.reading, n.checkHello payload with
        | .payload header, .ok hello =>
            readable s header.payloadLength.toNat (some payload)
              ∧ validateFramePayload κ header payload = .none
              ∧ s.remoteHello.isNone ∧ header.type = .hello
              ∧ n.abandonsDuplicate id hello.sessionNonce
        | _, _ => false
  | _ => false

/-! ## The invariant -/

/-- An enabled target is waited for, unless it is the `hole`; the session it names is
its own and open; and it names every open session of its own but the `pending` one. -/
structure Attended (n : PeerNetwork) (hole pending : Option Nat) (t : Nat) (target : Target) :
    Prop where
  waits : some t ≠ hole →
    target.connecting = true ∨ target.sessionId.isSome = true ∨ target.timerArmed = true
  served : ∀ id, target.sessionId = some id →
    target.connecting = false ∧ n.isOpen id = true ∧ n.targetOf id = some t
  owned : ∀ id, n.isOpen id = true → n.targetOf id = some t → some id ≠ pending →
    target.sessionId = some id

structure Tended (n : PeerNetwork) (hole pending : Option Nat) : Prop where
  running : n.stopping = false
  fresh : ∀ t target, n.targetObjects t = some target → t < n.nextTarget
  bound : ∀ id t, n.targetOf id = some t → t < n.nextTarget
  known : ∀ entry ∈ n.targets, ∃ target, n.targetObjects entry.2 = some target ∧
    target.enabled = true
  distinct : (n.targets.map Prod.snd).Nodup
  each : ∀ t target, n.targetObjects t = some target → target.enabled = true →
    n.Attended hole pending t target

/-- Nothing that the invariant speaks about has changed. -/
structure Aloof (n n' : PeerNetwork) : Prop where
  stopping : n'.stopping = n.stopping
  nextTarget : n'.nextTarget = n.nextTarget
  targetObjects : n'.targetObjects = n.targetObjects
  targets : n'.targets = n.targets
  targetOf : ∀ id, n'.targetOf id = n.targetOf id
  isOpen : ∀ id, n'.isOpen id = n.isOpen id

theorem Attended.congr {target : Target} (h : n.Attended hole pending t target)
    (htargetOf : ∀ id, n'.targetOf id = n.targetOf id)
    (hopen : ∀ id, n'.isOpen id = n.isOpen id) : n'.Attended hole pending t target where
  waits := h.waits
  served id hid := by
    rw [htargetOf, hopen]
    exact h.served id hid
  owned id := by
    rw [htargetOf, hopen]
    exact h.owned id

theorem Aloof.tended (h : Aloof n n') (hn : n.Tended hole pending) : n'.Tended hole pending where
  running := h.stopping.trans hn.running
  fresh := by
    rw [h.targetObjects, h.nextTarget]
    exact hn.fresh
  bound id t hid := by
    rw [h.targetOf] at hid
    rw [h.nextTarget]
    exact hn.bound id t hid
  known := by
    rw [h.targetObjects, h.targets]
    exact hn.known
  distinct := by
    rw [h.targets]
    exact hn.distinct
  each t target ht henabled := by
    rw [h.targetObjects] at ht
    exact (hn.each t target ht henabled).congr h.targetOf h.isOpen

theorem Aloof.trans {n'' : PeerNetwork} (h : Aloof n n') (h' : Aloof n' n'') : Aloof n n'' where
  stopping := h'.stopping.trans h.stopping
  nextTarget := h'.nextTarget.trans h.nextTarget
  targetObjects := h'.targetObjects.trans h.targetObjects
  targets := h'.targets.trans h.targets
  targetOf id := (h'.targetOf id).trans (h.targetOf id)
  isOpen id := (h'.isOpen id).trans (h.isOpen id)

theorem aloof_emit (n : PeerNetwork) (event : PeerEvent) : Aloof n (n.emit event) :=
  ⟨rfl, rfl, rfl, rfl, fun _ => rfl, fun _ => rfl⟩

theorem aloof_recordStatus (n : PeerNetwork) (id : Nat) : Aloof n (n.recordStatus id) := by
  rw [recordStatus]
  split <;> exact ⟨rfl, rfl, rfl, rfl, fun _ => rfl, fun _ => rfl⟩

/-- A change inside a session that keeps its target and does not stop it. -/
def Bound (f : Session → Session) : Prop :=
  ∀ s, (f s).target = s.target ∧ (f s).stopped = s.stopped

theorem targetOf_modifySession (n : PeerNetwork) (id : Nat) {f : Session → Session}
    (hf : ∀ s, (f s).target = s.target) (other : Nat) :
    (n.modifySession id f).targetOf other = n.targetOf other := by
  rw [targetOf, targetOf, objects_modifySession]
  split
  · rename_i heq
    rw [heq]
    cases n.objects id with
    | none => rfl
    | some s => exact hf s
  · rfl

theorem aloof_modifySession (n : PeerNetwork) (id : Nat) {f : Session → Session} (hf : Bound f) :
    Aloof n (n.modifySession id f) where
  stopping := rfl
  nextTarget := rfl
  targetObjects := rfl
  targets := rfl
  targetOf := targetOf_modifySession n id fun s => (hf s).1
  isOpen other := by
    rw [isOpen, isOpen, objects_modifySession]
    split
    · rename_i heq
      rw [heq]
      cases n.objects id with
      | none => rfl
      | some s => rw [Option.map_some, Option.any_some, Option.any_some, (hf s).2]
    · rfl

theorem bound_queue (frame : Bytes) : Bound (Session.queue frame) := by
  intro s
  rw [Session.queue]
  split <;> exact ⟨rfl, rfl⟩

/-! ## Targets -/

theorem targetObjects_modifyTarget (n : PeerNetwork) (t : Nat) (f : Target → Target)
    (other : Nat) :
    (n.modifyTarget t f).targetObjects other
      = if other = t then (n.targetObjects t).map f else n.targetObjects other := by
  rw [modifyTarget]
  exact Function.update_apply ..

/-- A change of one target. -/
theorem Tended.modifyTarget {hole' pending' : Option Nat} {f : Target → Target}
    (hn : n.Tended hole pending)
    (hkept : ∀ target, target.enabled = true → (f target).enabled = true)
    (hf : ∀ target, n.targetObjects t = some target → (f target).enabled = true →
      n.Attended hole' pending' t (f target))
    (hothers : ∀ other target, other ≠ t → n.Attended hole pending other target →
      n.Attended hole' pending' other target) :
    (n.modifyTarget t f).Tended hole' pending' where
  running := hn.running
  fresh other target hother := by
    rw [targetObjects_modifyTarget] at hother
    split at hother
    · rename_i heq
      obtain ⟨old, hold, -⟩ := Option.map_eq_some_iff.mp hother
      rw [heq]
      exact hn.fresh t old hold
    · exact hn.fresh other target hother
  bound := hn.bound
  known entry hentry := by
    rw [targetObjects_modifyTarget]
    obtain ⟨target, htarget, henabled⟩ := hn.known entry hentry
    split
    · rename_i heq
      rw [heq] at htarget
      exact ⟨f target, by rw [htarget]; rfl, hkept target henabled⟩
    · exact ⟨target, htarget, henabled⟩
  distinct := hn.distinct
  each other target hother henabled := by
    rw [targetObjects_modifyTarget] at hother
    split at hother
    · rename_i heq
      obtain ⟨old, hold, rfl⟩ := Option.map_eq_some_iff.mp hother
      subst heq
      exact (hf old hold henabled).congr (fun _ => rfl) fun _ => rfl
    · rename_i hne
      exact (hothers other target hne (hn.each other target hother henabled)).congr
        (fun _ => rfl) fun _ => rfl

/-- A target that need not be waited for may be. -/
theorem Tended.open_hole (hn : n.Tended none pending) (t : Nat) : n.Tended (some t) pending where
  running := hn.running
  fresh := hn.fresh
  bound := hn.bound
  known := hn.known
  distinct := hn.distinct
  each other target hother henabled :=
    have h := hn.each other target hother henabled
    ⟨fun _ => h.waits (Option.some_ne_none other), h.served, h.owned⟩

/-- The hole is closed when its target is waited for. -/
theorem Tended.close_hole (hn : n.Tended (some t) pending)
    (h : ∀ target, n.targetObjects t = some target → target.enabled = true →
      target.connecting = true ∨ target.sessionId.isSome = true ∨ target.timerArmed = true) :
    n.Tended none pending where
  running := hn.running
  fresh := hn.fresh
  bound := hn.bound
  known := hn.known
  distinct := hn.distinct
  each other target hother henabled := by
    have hattended := hn.each other target hother henabled
    refine ⟨fun _ => ?_, hattended.served, hattended.owned⟩
    by_cases heq : other = t
    · rw [heq] at hother
      exact h target hother henabled
    · exact hattended.waits fun hsome => heq (Option.some.inj hsome)

theorem Attended.of_ne_hole {target : Target} (h : n.Attended (some t) pending other target)
    (hne : other ≠ t) : n.Attended none pending other target :=
  ⟨fun _ => h.waits fun heq => hne (Option.some.inj heq), h.served, h.owned⟩

theorem Tended.scheduleReconnect (hn : n.Tended (some t) pending) :
    (n.scheduleReconnect t).Tended none pending := by
  rw [PeerNetwork.scheduleReconnect]
  cases ht : n.targetObjects t with
  | none =>
      refine hn.close_hole fun target htarget => ?_
      rw [ht] at htarget
      cases htarget
  | some target =>
      dsimp only
      split
      · rename_i hreturns
        refine hn.close_hole fun other hother henabled => ?_
        rw [ht] at hother
        cases hother
        rcases hreturns with hstopping | hdisabled | hconnecting | hsession
        · rw [hn.running] at hstopping
          cases hstopping
        · exact absurd henabled hdisabled
        · exact Or.inl hconnecting
        · exact Or.inr (Or.inl hsession)
      · refine hn.modifyTarget (fun _ h => h) (fun old hold henabled => ?_)
          fun other _ hne h => h.of_ne_hole hne
        have h := hn.each t old hold henabled
        exact ⟨fun _ => Or.inr (Or.inr rfl), h.served, h.owned⟩

/-- Below the peer limit an attempt is begun, unless it is not needed. -/
theorem Tended.beginConnect (hn : n.Tended (some t) pending) (hroom : n.isFull = false) :
    (n.beginConnect t).Tended none pending := by
  rw [PeerNetwork.beginConnect]
  cases ht : n.targetObjects t with
  | none =>
      refine hn.close_hole fun target htarget => ?_
      rw [ht] at htarget
      cases htarget
  | some target =>
      dsimp only
      split
      · rename_i hreturns
        refine hn.close_hole fun other hother henabled => ?_
        rw [ht] at hother
        cases hother
        rcases hreturns with hstopping | hdisabled | hconnecting | hsession | hfull
        · rw [hn.running] at hstopping
          cases hstopping
        · exact absurd henabled hdisabled
        · exact Or.inl hconnecting
        · exact Or.inr (Or.inl hsession)
        · exact absurd hfull (of_decide_eq_false hroom)
      · rename_i hbegins
        refine hn.modifyTarget (fun _ h => h) (fun old hold henabled => ?_)
          fun other _ hne h => h.of_ne_hole hne
        have h := hn.each t old hold henabled
        refine ⟨fun _ => Or.inl rfl, fun id hid => ?_, h.owned⟩
        rw [ht] at hold
        cases hold
        refine absurd (Or.inr (Or.inr (Or.inr (Or.inl ?_)))) hbegins
        show target.sessionId.isSome = true
        rw [show target.sessionId = some id from hid]
        rfl

/-- At the limit nothing happens. -/
theorem beginConnect_of_isFull (h : n.isFull = true) (t : Nat) : n.beginConnect t = n := by
  rw [beginConnect]
  cases n.targetObjects t with
  | none => rfl
  | some target =>
      exact if_pos (Or.inr (Or.inr (Or.inr (Or.inr (of_decide_eq_true h)))))

theorem Tended.beginConnect_again (hn : n.Tended none pending) (t : Nat) :
    (n.beginConnect t).Tended none pending := by
  cases hfull : n.isFull with
  | true =>
      rw [beginConnect_of_isFull hfull]
      exact hn
  | false => exact (hn.open_hole t).beginConnect hfull

/-! ## Stopping a session -/

/-- A session that no target names may be taken off the tables. -/
theorem Tended.close (hn : n.Tended hole (some id)) (event : PeerEvent)
    (hfree : ∀ t target, n.targetObjects t = some target → target.enabled = true →
      target.sessionId ≠ some id) :
    (((n.modifySession id Session.halt).emit event).unlist id).Tended hole none := by
  have htargetOf : ∀ x, (((n.modifySession id Session.halt).emit event).unlist id).targetOf x
      = n.targetOf x := targetOf_modifySession n id fun _ => rfl
  have hopen : ∀ x, (((n.modifySession id Session.halt).emit event).unlist id).isOpen x
      = (n.isOpen x && x ≠ id) := isOpen_halt n id
  refine ⟨hn.running, hn.fresh, fun x t hx => ?_, hn.known, hn.distinct,
    fun t target ht henabled => ?_⟩
  · rw [htargetOf] at hx
    exact hn.bound x t hx
  have h := hn.each t target ht henabled
  refine ⟨h.waits, fun x hx => ?_, fun x hx hxt _ => ?_⟩
  · obtain ⟨hidle, hxopen, hxt⟩ := h.served x hx
    have hne : x ≠ id := by
      rintro rfl
      exact hfree t target ht henabled hx
    rw [hopen, htargetOf, hxopen, hxt]
    exact ⟨hidle, by simpa using hne, rfl⟩
  · rw [hopen, Bool.and_eq_true, decide_eq_true_iff] at hx
    rw [htargetOf] at hxt
    exact h.owned x hx.1 hxt fun heq => hx.2 (Option.some.inj heq)

/-- The target that a session serves loses it, and is then waited for by nobody. -/
theorem Tended.release (hn : n.Tended none (some id)) (ht : n.targetOf id = some t)
    (hsession : (n.targetObjects t).bind Target.sessionId = some id) (event : PeerEvent) :
    ((((n.modifySession id Session.halt).emit event).unlist id).modifyTarget t fun target =>
      { target with sessionId := none }).Tended (some t) none := by
  have hmodified : (n.modifyTarget t fun target => { target with sessionId := none }).Tended
      (some t) (some id) := by
    refine hn.modifyTarget (fun _ h => h) (fun target htarget henabled => ?_)
      fun other target hne h => ?_
    · have h := hn.each t target htarget henabled
      refine ⟨fun hne => absurd rfl hne, (fun _ hid => by cases hid),
        fun x hx hxt hne => ?_⟩
      -- a target names one session only
      have hx := h.owned x hx hxt hne
      rw [htarget, Option.bind_some, hx] at hsession
      exact absurd hsession hne
    · exact ⟨fun _ => h.waits (Option.some_ne_none other), h.served, h.owned⟩
  -- the order of the two changes does not matter
  refine hmodified.close event fun other target hother henabled hid => ?_
  rw [targetObjects_modifyTarget] at hother
  split at hother
  · obtain ⟨old, -, rfl⟩ := Option.map_eq_some_iff.mp hother
    cases hid
  · rename_i hne
    have hserved := ((hn.each other target hother henabled).served id hid).2.2
    rw [ht] at hserved
    exact hne (Option.some.inj hserved).symm

/-- Stopping a session: its target is dialled again, or does not need it. -/
theorem Tended.stop (hn : n.Tended none (some id)) (reason : StopReason) {reconnect : Bool}
    (hreconnect : reconnect = false → n.isOpen id = true → ∀ t target, n.targetOf id = some t →
      n.targetObjects t = some target → target.enabled = true → target.sessionId ≠ some id)
    (hclosed : n.isOpen id = false → n.Tended none none) :
    (n.stop id reason true reconnect).Tended none none := by
  rw [stop_notified]
  cases hopen : n.isOpen id with
  | false => exact hclosed hopen
  | true =>
      rw [if_pos rfl, sessionStopped, releaseTarget]
      have htargetOf : (((n.modifySession id Session.halt).emit
          (.disconnected id reason)).unlist id).targetOf id = n.targetOf id :=
        targetOf_modifySession n id (f := Session.halt) (fun _ => rfl) id
      rw [targetOf] at htargetOf
      rw [htargetOf]
      cases ht : n.targetOf id with
      | none =>
          refine hn.close _ fun t target htarget henabled hid => ?_
          have hserved := ((hn.each t target htarget henabled).served id hid).2.2
          rw [ht] at hserved
          cases hserved
      | some t =>
          dsimp only
          split
          · rename_i hsession
            have hreleased := hn.release ht hsession (.disconnected id reason)
            cases reconnect with
            | true => exact hreleased.scheduleReconnect
            | false =>
                refine hreleased.close_hole fun target htarget henabled => ?_
                rw [targetObjects_modifyTarget, if_pos rfl] at htarget
                obtain ⟨old, hold, rfl⟩ := Option.map_eq_some_iff.mp htarget
                have hold : n.targetObjects t = some old := hold
                have hsession : (n.targetObjects t).bind Target.sessionId = some id := hsession
                rw [hold] at hsession
                exact absurd hsession (hreconnect rfl hopen t old ht hold henabled)
          · rename_i hsession
            refine hn.close _ fun other target htarget henabled hid => hsession ?_
            have hserved := ((hn.each other target htarget henabled).served id hid).2.2
            rw [ht] at hserved
            rw [Option.some.inj hserved]
            show (n.targetObjects other).bind Target.sessionId = some id
            rw [htarget]
            exact hid

/-- Every session may be pending. -/
theorem Tended.pend (hn : n.Tended hole none) (id : Nat) : n.Tended hole (some id) where
  running := hn.running
  fresh := hn.fresh
  bound := hn.bound
  known := hn.known
  distinct := hn.distinct
  each t target ht henabled :=
    have h := hn.each t target ht henabled
    ⟨h.waits, h.served, fun x hx hxt _ => h.owned x hx hxt (Option.some_ne_none x)⟩

/-- A session that ends is dialled again. -/
theorem Tended.stop_reconnect (hn : n.Tended none none) (id : Nat) (reason : StopReason) :
    (n.stop id reason true true).Tended none none :=
  (hn.pend id).stop reason (fun h => by cases h) fun _ => hn

/-! ## Sending, reading and timers -/

theorem Tended.modifySession (hn : n.Tended hole pending) (id : Nat) {f : Session → Session}
    (hf : Bound f) : (n.modifySession id f).Tended hole pending :=
  (aloof_modifySession n id hf).tended hn

theorem Tended.send (κ : Crypto) (hn : n.Tended none none) (id : Nat) (type : MessageType)
    (payload : Bytes) : (n.send κ id type payload).Tended none none := by
  rw [PeerNetwork.send]
  split
  · exact hn.stop_reconnect id _
  · exact hn.modifySession id (bound_queue _)

theorem Tended.sendPing (κ : Crypto) (hn : n.Tended none none) (id : Nat) (nonce : UInt64) :
    (n.sendPing κ id nonce).Tended none none := by
  rw [PeerNetwork.sendPing]
  split
  · have hpinged := hn.modifySession id (f := Session.pinged nonce) fun _ => ⟨rfl, rfl⟩
    exact ((aloof_recordStatus _ id).tended hpinged).send κ id _ _
  · exact hn

theorem Tended.sendMessage (κ : Crypto) (hn : n.Tended none none) (id : Nat) (type : MessageType)
    (payload : Bytes) : (n.sendMessage κ id type payload).Tended none none := by
  rw [PeerNetwork.sendMessage]
  split
  · exact hn.send κ id type payload
  · exact hn

theorem Tended.headerRead (hn : n.Tended none none) (id : Nat) (result : Option Bytes) :
    (n.headerRead id result).Tended none none := by
  have hend := hn.modifySession id (f := Session.endRead) fun _ => ⟨rfl, rfl⟩
  cases result with
  | none => exact hend.stop_reconnect id _
  | some bytes =>
      rw [PeerNetwork.headerRead]
      cases deserializeFrameHeader n.config.chainId bytes with
      | error e => exact hend.stop_reconnect id _
      | ok header => exact hend.modifySession id fun _ => ⟨rfl, rfl⟩

theorem Tended.written (hn : n.Tended none none) (id : Nat) (ok : Bool) :
    (n.written id ok).Tended none none := by
  have hend := hn.modifySession id (f := Session.endWrite) fun _ => ⟨rfl, rfl⟩
  rw [PeerNetwork.written]
  split
  · exact hend.modifySession id fun _ => ⟨rfl, rfl⟩
  · exact hend.stop_reconnect id _

theorem Tended.handshakeTimer (hn : n.Tended none none) (id : Nat) :
    (n.handshakeTimer id).Tended none none := by
  rw [PeerNetwork.handshakeTimer]
  split
  · exact hn
  · exact hn.stop_reconnect id _

theorem Tended.idleTimer (κ : Crypto) (hn : n.Tended none none) (id : Nat) :
    (n.idleTimer κ id).Tended none none := by
  rw [PeerNetwork.idleTimer]
  split
  · have hreserved : Aloof n n.reservePingNonce :=
      ⟨rfl, rfl, rfl, rfl, fun _ => rfl, fun _ => rfl⟩
    have hwatched := (hreserved.tended hn).modifySession id
      (f := Session.watch (some n.nextPingNonce)) fun _ => ⟨rfl, rfl⟩
    exact hwatched.sendPing κ id _
  · exact hn

theorem Tended.pongTimer (hn : n.Tended none none) (id : Nat) (nonce : UInt64) :
    (n.pongTimer id nonce).Tended none none := by
  rw [PeerNetwork.pongTimer]
  split
  · exact hn.stop_reconnect id _
  · exact hn

theorem Tended.handlePong (hn : n.Tended none none) (id : Nat) (s : Session) (nonce : UInt64) :
    (n.handlePong id s nonce).Tended none none := by
  have hmatch : (n.matchPong id s nonce).Tended none none := by
    rw [matchPong]
    split
    · have hponged := hn.modifySession id (f := Session.ponged nonce) fun _ => ⟨rfl, rfl⟩
      exact (aloof_emit _ _).tended ((aloof_recordStatus _ id).tended hponged)
    · exact (aloof_emit n _).tended hn
  rw [PeerNetwork.handlePong]
  split
  · exact hmatch.modifySession id fun _ => ⟨rfl, rfl⟩
  · exact hmatch

/-! ## The handshake -/

theorem targetOf_adoptTarget (n : PeerNetwork) (kept t x : Nat) :
    (n.adoptTarget kept (some t)).targetOf x
      = if x = kept ∧ (n.objects kept).isSome = true then some t else n.targetOf x := by
  show (n.modifySession kept (Session.adopt t)).targetOf x = _
  rw [targetOf, targetOf, objects_modifySession]
  by_cases heq : x = kept
  · rw [if_pos heq, heq]
    cases n.objects kept with
    | none => simp
    | some s => simp [Session.adopt]
  · rw [if_neg heq, if_neg fun h => heq h.1]

/-- The kept session takes over the target of the closed one. -/
theorem Tended.adopt {closed kept : Nat} (hn : n.Tended none none)
    (ht : n.targetOf closed = some t) (hnone : n.targetOf kept = none)
    (hobject : (n.objects kept).isSome = true)
    (hfree : ∀ target, n.targetObjects t = some target → target.enabled = true →
      n.isOpen kept = true ∧ (target.sessionId = some closed ∨
        (target.connecting = false ∧ target.sessionId = none))) :
    (n.adoptTarget kept (some t)).Tended none (some closed) := by
  have htargetOf : ∀ x, (n.adoptTarget kept (some t)).targetOf x
      = if x = kept then some t else n.targetOf x := by
    intro x
    rw [targetOf_adoptTarget, hobject]
    simp
  have hopen := isOpen_adoptTarget n kept (some t)
  have htargets : ∀ x, (n.adoptTarget kept (some t)).targetObjects x
      = if x = t then (n.targetObjects t).map fun target => { target with sessionId := some kept }
        else n.targetObjects x := targetObjects_modifyTarget _ t _
  refine ⟨hn.running, fun x target hx => ?_, fun x y hx => ?_, fun entry hentry => ?_,
    hn.distinct, fun x target hx henabled => ?_⟩
  · rw [htargets] at hx
    split at hx
    · rename_i heq
      rw [heq]
      exact hn.bound closed t ht
    · exact hn.fresh x target hx
  · rw [htargetOf] at hx
    split at hx
    · cases hx
      exact hn.bound closed t ht
    · exact hn.bound x y hx
  · obtain ⟨target, htarget, henabled⟩ := hn.known entry hentry
    rw [htargets]
    split
    · rename_i heq
      rw [heq] at htarget
      exact ⟨{ target with sessionId := some kept }, by rw [htarget]; rfl, henabled⟩
    · exact ⟨target, htarget, henabled⟩
  rw [htargets] at hx
  split at hx
  · rename_i heq
    subst heq
    obtain ⟨old, hold, rfl⟩ := Option.map_eq_some_iff.mp hx
    have h := hn.each x old hold henabled
    obtain ⟨hkept, hsession⟩ := hfree old hold henabled
    refine ⟨fun _ => Or.inr (Or.inl rfl), fun y hy => ?_, fun y hy hyx hne => ?_⟩
    · cases hy
      rw [hopen, htargetOf, if_pos rfl]
      refine ⟨?_, hkept, rfl⟩
      rcases hsession with hclosed | hidle
      · exact (h.served closed hclosed).1
      · exact hidle.1
    · rw [hopen] at hy
      rw [htargetOf] at hyx
      split at hyx
      · rename_i hyk
        rw [hyk]
      · -- the closed session was the only one of this target
        have hnamed := h.owned y hy hyx (Option.some_ne_none y)
        rcases hsession with hclosed | hidle
        · rw [hclosed] at hnamed
          exact absurd hnamed.symm hne
        · rw [hidle.2] at hnamed
          cases hnamed
  · rename_i hxt
    have h := hn.each x target hx henabled
    refine ⟨h.waits, fun y hy => ?_, fun y hy hyx _ => ?_⟩
    · obtain ⟨hidle, hyopen, hyx⟩ := h.served y hy
      rw [hopen, htargetOf, if_neg]
      · exact ⟨hidle, hyopen, hyx⟩
      · rintro rfl
        rw [hnone] at hyx
        cases hyx
    · rw [hopen] at hy
      rw [htargetOf] at hyx
      split at hyx
      · exact absurd (Option.some.inj hyx).symm hxt
      · exact h.owned y hy hyx (Option.some_ne_none y)

/-- A session needs no exception if it is not an open one of a target. -/
theorem Tended.settle_of (hn : n.Tended hole (some id))
    (hfree : ∀ t, n.isOpen id = true → n.targetOf id ≠ some t) : n.Tended hole none where
  running := hn.running
  fresh := hn.fresh
  bound := hn.bound
  known := hn.known
  distinct := hn.distinct
  each t target ht henabled := by
    have h := hn.each t target ht henabled
    refine ⟨h.waits, h.served, fun x hx hxt _ => h.owned x hx hxt ?_⟩
    intro heq
    obtain rfl := Option.some.inj heq
    exact hfree t hx hxt

/-- A stopped session needs none. -/
theorem Tended.settle (hn : n.Tended hole (some id)) (hclosed : n.isOpen id = false) :
    n.Tended hole none := by
  refine hn.settle_of fun t hopen => ?_
  rw [hclosed] at hopen
  cases hopen

theorem abandons_eq_false {closed kept : Nat} {target : Target}
    (h : n.abandons closed kept = false) (ht : n.targetOf closed = some t)
    (htarget : n.targetObjects t = some target) (henabled : target.enabled = true) :
    ((n.targetOf kept).isSome = true → n.isOpen closed = false) ∧
    (n.targetOf kept = none → n.isOpen kept = true ∧
      (n.isOpen closed = false → target.connecting = false ∧ target.sessionId = none)) := by
  rw [abandons, ht, Option.any_some, htarget, Option.any_some] at h
  have hneither := of_decide_eq_false h
  constructor
  · intro hsome
    rw [if_pos hsome] at hneither
    exact Bool.eq_false_iff.mpr fun hopen => hneither ⟨henabled, hopen⟩
  · intro hnone
    rw [hnone] at hneither
    refine ⟨?_, fun hclosed => ⟨?_, ?_⟩⟩
    · by_contra hkept
      exact hneither ⟨henabled, Or.inl (Bool.eq_false_iff.mpr hkept)⟩
    · refine Bool.eq_false_iff.mpr fun hconnecting => hneither ⟨henabled, Or.inr ⟨hclosed, ?_⟩⟩
      exact Or.inl hconnecting
    · refine Option.not_isSome_iff_eq_none.mp fun hsome => hneither ⟨henabled, Or.inr ⟨hclosed, ?_⟩⟩
      exact Or.inr hsome

/-- A duplicate is closed, and its target goes to the session that is kept. -/
theorem Tended.handOver {closed kept : Nat} (hn : n.Tended none none)
    (hobject : (n.objects kept).isSome = true) (h : n.abandons closed kept = false) :
    ((if (n.targetOf kept).isNone then n.adoptTarget kept (n.targetOf closed) else n).stop closed
      .duplicatePeerConnection true false).Tended none none := by
  cases hkept : n.targetOf kept with
  | some held =>
      refine (hn.pend closed).stop _ (fun _ hopen t target ht htarget henabled => ?_) fun _ => hn
      have hclosed := (abandons_eq_false h ht htarget henabled).1 (by rw [hkept]; rfl)
      rw [hclosed] at hopen
      cases hopen
  | none =>
      cases hclosed : n.targetOf closed with
      | none =>
          refine (hn.pend closed).stop _ (fun _ _ t target ht => ?_) fun _ => hn
          have ht : n.targetOf closed = some t := ht
          rw [hclosed] at ht
          cases ht
      | some t =>
          have hadopted := hn.adopt hclosed hkept hobject fun target htarget henabled => by
            obtain ⟨hopen, hmoved⟩ := (abandons_eq_false h hclosed htarget henabled).2 hkept
            refine ⟨hopen, ?_⟩
            cases hstopped : n.isOpen closed with
            | false => exact Or.inr (hmoved hstopped)
            | true =>
                exact Or.inl ((hn.each t target htarget henabled).owned closed hstopped hclosed
                  (Option.some_ne_none closed))
          refine hadopted.stop _ (fun _ hopen x target hx htarget _ hnames => ?_) hadopted.settle
          -- the target names the session that is kept
          have hne : closed ≠ kept := by
            rintro rfl
            rw [hkept] at hclosed
            cases hclosed
          have hx : (n.adoptTarget kept (some t)).targetOf closed = some x := hx
          rw [targetOf_adoptTarget, if_neg fun heq => hne heq.1, hclosed] at hx
          cases hx
          have htarget : (n.adoptTarget kept (some t)).targetObjects t = some target := htarget
          rw [show (n.adoptTarget kept (some t)).targetObjects t
              = (n.targetObjects t).map fun target => { target with sessionId := some kept } from
            (targetObjects_modifyTarget _ t _ t).trans (if_pos rfl)] at htarget
          obtain ⟨old, -, rfl⟩ := Option.map_eq_some_iff.mp htarget
          exact hne (Option.some.inj hnames).symm

theorem Tended.resetDelay (hn : n.Tended none none) (id : Nat) :
    (n.resetDelay id).Tended none none := by
  rw [PeerNetwork.resetDelay]
  cases n.targetOf id with
  | none => exact hn
  | some t =>
      refine hn.modifyTarget (fun _ h => h) (fun target htarget henabled => ?_) fun _ _ _ h => h
      have h := hn.each t target htarget henabled
      exact ⟨h.waits, h.served, h.owned⟩

theorem Tended.completeHandshake (hn : n.Tended none none) (hlisted : n.Listed)
    (hobject : (n.objects id).isSome = true) {nonce : FixedBytes 16}
    (h : n.abandonsDuplicate id nonce = false) :
    (n.completeHandshake id nonce).1.Tended none none := by
  rw [abandonsDuplicate] at h
  rw [PeerNetwork.completeHandshake]
  cases hdup : n.duplicateOf id nonce with
  | none => exact hn.resetDelay id
  | some other =>
      obtain ⟨-, s, hs, -⟩ := duplicateOf_eq_some hlisted hdup
      have hother : (n.objects other).isSome = true := by rw [hs]; rfl
      rw [hdup] at h
      dsimp only at h ⊢
      split
      · rename_i hreplaces
        rw [if_pos hreplaces] at h
        exact (hn.handOver hobject h).resetDelay id
      · rename_i hyields
        rw [if_neg hyields] at h
        exact hn.handOver hother h

theorem abandons_congr (h : Aloof n n') (closed kept : Nat) :
    n'.abandons closed kept = n.abandons closed kept := by
  rw [abandons, abandons, h.targetOf, h.targetOf, h.targetObjects, h.isOpen, h.isOpen]

theorem abandonsDuplicate_modifySession {f : Session → Session} (hf : Bound f)
    (hdirection : ∀ s, (f s).direction = s.direction) (nonce : FixedBytes 16) :
    (n.modifySession id f).abandonsDuplicate id nonce = n.abandonsDuplicate id nonce := by
  rw [abandonsDuplicate, abandonsDuplicate, duplicateOf_modifySession]
  cases n.duplicateOf id nonce with
  | none => rfl
  | some other =>
      dsimp only
      rw [directed_modifySession hdirection, directed_modifySession hdirection,
        abandons_congr (aloof_modifySession n id hf), abandons_congr (aloof_modifySession n id hf)]
      rfl

theorem bound_greet (hello : HelloPayload) : Bound (Session.greet hello) := fun _ => ⟨rfl, rfl⟩

theorem Tended.handleHello (hn : n.Tended none none) (hlisted : n.Listed)
    (hobject : (n.objects id).isSome = true) {payload : Bytes}
    (h : ∀ hello, n.checkHello payload = .ok hello →
      n.abandonsDuplicate id hello.sessionNonce = false) :
    (n.handleHello id payload).1.Tended none none := by
  rw [PeerNetwork.handleHello]
  cases hcheck : n.checkHello payload with
  | error reason => exact hn.stop_reconnect id reason
  | ok hello =>
      have hgreeted : (n.greet id hello).Tended none none := hn.modifySession id (bound_greet hello)
      have hsome : ((n.greet id hello).objects id).isSome = true := by
        rw [objects_greet, if_pos rfl, Option.isSome_map]
        exact hobject
      have hduplicate : (n.greet id hello).abandonsDuplicate id hello.sessionNonce = false :=
        (abandonsDuplicate_modifySession (bound_greet hello) (fun _ => rfl) _).trans
          (h hello hcheck)
      have hdone := hgreeted.completeHandshake (listed_greet hlisted hello) hsome hduplicate
      dsimp only
      split
      · have hwelcome := hdone.modifySession id (f := Session.welcome) fun _ => ⟨rfl, rfl⟩
        exact (aloof_emit _ _).tended ((aloof_recordStatus _ id).tended hwelcome)
      · exact hdone

theorem Tended.handleMessage (κ : Crypto) (hn : n.Tended none none) (hlisted : n.Listed)
    (hobject : (n.objects id).isSome = true) {s : Session} {type : MessageType} {payload : Bytes}
    (h : s.remoteHello.isNone = true → type = .hello → ∀ hello, n.checkHello payload = .ok hello →
      n.abandonsDuplicate id hello.sessionNonce = false) :
    (n.handleMessage κ id s type payload).1.Tended none none := by
  rw [PeerNetwork.handleMessage]
  split
  · rename_i hnew
    split
    · exact hn.stop_reconnect id _
    · rename_i htype
      exact hn.handleHello hlisted hobject (h hnew (not_not.mp htype))
  split
  · exact hn.stop_reconnect id _
  split
  · exact hn.stop_reconnect id _
  split
  · exact hn.send κ id _ _
  split
  · exact hn.handlePong id s _
  · have hdeliver : Aloof n (n.deliver id type payload) :=
      ⟨rfl, rfl, rfl, rfl, fun _ => rfl, fun _ => rfl⟩
    exact hdeliver.tended hn

/-- The payload of a frame, unless it leaves a target behind. -/
theorem Tended.payloadRead (κ : Crypto) (hn : n.Tended none none) (hlisted : n.Listed)
    {s : Session} (hs : n.objects id = some s) {header : FrameHeader} {result : Option Bytes}
    (h : ∀ payload hello, result = some payload → n.checkHello payload = .ok hello →
      validateFramePayload κ header payload = .none → s.remoteHello.isNone = true →
      header.type = .hello → n.abandonsDuplicate id hello.sessionNonce = false) :
    (n.payloadRead κ id s header result).Tended none none := by
  have hbound : Bound Session.endRead := fun _ => ⟨rfl, rfl⟩
  have hend := hn.modifySession id hbound
  cases result with
  | none => exact hend.stop_reconnect id _
  | some payload =>
      rw [PeerNetwork.payloadRead]
      dsimp only
      split
      · exact hend.stop_reconnect id _
      rename_i hvalid
      have hlisted' : (n.modifySession id Session.endRead).Listed :=
        (quiet_modifySession n id Session.inner_endRead).listed hlisted
      have hobject : ((n.modifySession id Session.endRead).objects id).isSome = true := by
        rw [objects_modifySession, if_pos rfl, hs]
        rfl
      have hmessage : ((n.modifySession id Session.endRead).handleMessage κ id s header.type
          payload).1.Tended none none := by
        refine hend.handleMessage κ hlisted' hobject fun hnew htype hello hcheck => ?_
        rw [abandonsDuplicate_modifySession hbound fun _ => rfl]
        exact h payload hello rfl hcheck (not_not.mp hvalid) hnew htype
      split
      · exact hmessage.modifySession id fun _ => ⟨rfl, rfl⟩
      · exact hmessage

/-! ## Connections -/

/-- The `HELLO` of a new session fits into its queue. -/
theorem send_hello (κ : Crypto) (hello : HelloPayload)
    (hqueue : ((n.objects id).map Session.queuedBytes).getD 0 = 0) :
    n.send κ id .hello (serializeHello hello)
      = n.modifySession id (Session.queue
          (serializeFrame κ n.config.chainId .hello (serializeHello hello))) := by
  obtain ⟨network, hnet⟩ := n.config.supported.parameters
  have hlength : (serializeFrame κ n.config.chainId .hello (serializeHello hello)).length
      = frameHeaderSize + helloPayloadSize := by
    rw [serializeFrame_of_valid hnet ?_]
    · simp
    · rw [length_serializeHello]
      rfl
  have hfits : ¬ n.overflows κ id .hello (serializeHello hello) := by
    rw [overflows, hqueue, hlength, ← List.length_eq_zero_iff, hlength]
    decide
  rw [send, if_neg hfits]

/-- A new session, still to be named by its target. -/
theorem Tended.createSession (κ : Crypto) (hn : n.Tended hole none) (hinv : n.Inv)
    (direction : PeerDirection) (endpoint : Option Endpoint) (target : Option Nat)
    (htarget : ∀ t, target = some t → t < n.nextTarget) :
    (n.createSession κ direction endpoint target).Tended hole (some n.nextSessionId) ∧
      (n.createSession κ direction endpoint target).isOpen n.nextSessionId = true ∧
      (n.createSession κ direction endpoint target).targetOf n.nextSessionId = target ∧
      (n.createSession κ direction endpoint target).targetObjects = n.targetObjects := by
  have hobjects : ∀ x, (n.addSession { direction, endpoint, target }).objects x
      = if x = n.nextSessionId then some { direction, endpoint, target } else n.objects x :=
    fun x => Function.update_apply ..
  have hclosed : n.isOpen n.nextSessionId = false := by
    rw [isOpen, hinv.fresh n.nextSessionId le_rfl]
    rfl
  have htargetOf : ∀ x, (n.addSession { direction, endpoint, target }).targetOf x
      = if x = n.nextSessionId then target else n.targetOf x := by
    intro x
    rw [targetOf, hobjects]
    split
    · rfl
    · rfl
  have hopen : ∀ x, (n.addSession { direction, endpoint, target }).isOpen x
      = if x = n.nextSessionId then true else n.isOpen x := by
    intro x
    rw [isOpen, hobjects]
    split
    · rfl
    · rfl
  have hadded : (n.addSession { direction, endpoint, target }).Tended hole
      (some n.nextSessionId) := by
    refine ⟨hn.running, hn.fresh, fun x t hx => ?_, hn.known, hn.distinct,
      fun t old ht henabled => ?_⟩
    · rw [htargetOf] at hx
      split at hx
      · exact htarget t hx
      · exact hn.bound x t hx
    have h := hn.each t old ht henabled
    refine ⟨h.waits, fun x hx => ?_, fun x hx hxt hne => ?_⟩
    · obtain ⟨hidle, hxopen, hxt⟩ := h.served x hx
      have hne : x ≠ n.nextSessionId := by
        rintro rfl
        rw [hclosed] at hxopen
        cases hxopen
      rw [hopen, htargetOf, if_neg hne, if_neg hne]
      exact ⟨hidle, hxopen, hxt⟩
    · have hne : x ≠ n.nextSessionId := fun heq => hne (congrArg some heq)
      rw [hopen, if_neg hne] at hx
      rw [htargetOf, if_neg hne] at hxt
      exact h.owned x hx hxt (Option.some_ne_none x)
  have hstart : Aloof (n.addSession { direction, endpoint, target })
      (n.createSession κ direction endpoint target) := by
    rw [PeerNetwork.createSession, startSession, send_hello κ]
    · exact (((aloof_recordStatus _ _).trans (aloof_emit _ _)).trans
        (aloof_modifySession _ _ (bound_queue _))).trans
          (aloof_modifySession _ _ fun _ => ⟨rfl, rfl⟩)
    · have hself : ((n.addSession { direction, endpoint, target }).recordStatus
          n.nextSessionId).objects = (n.addSession { direction, endpoint, target }).objects := by
        rw [recordStatus]
        split <;> rfl
      show ((((n.addSession { direction, endpoint, target }).recordStatus
        n.nextSessionId).objects n.nextSessionId).map Session.queuedBytes).getD 0 = 0
      rw [hself, hobjects, if_pos rfl]
      rfl
  refine ⟨hstart.tended hadded, ?_, ?_, hstart.targetObjects⟩
  · rw [hstart.isOpen, hopen, if_pos rfl]
  · rw [hstart.targetOf, htargetOf, if_pos rfl]

/-- A session without a target is not waited for by any. -/
theorem Tended.unowned (hn : n.Tended hole (some id)) (hnone : n.targetOf id = none) :
    n.Tended hole none := by
  refine hn.settle_of fun t _ htarget => ?_
  rw [hnone] at htarget
  cases htarget

theorem Tended.createInbound (κ : Crypto) (hn : n.Tended none none) (hinv : n.Inv)
    (endpoint : Option Endpoint) : (n.createSession κ .inbound endpoint none).Tended none none := by
  obtain ⟨hcreated, -, hnone, -⟩ := hn.createSession κ hinv .inbound endpoint none
    fun t ht => by cases ht
  exact hcreated.unowned hnone

theorem aloof_acceptNext (n : PeerNetwork) : Aloof n n.acceptNext := by
  rw [acceptNext]
  split
  · exact ⟨rfl, rfl, rfl, rfl, fun _ => rfl, fun _ => rfl⟩
  split <;> exact ⟨rfl, rfl, rfl, rfl, fun _ => rfl, fun _ => rfl⟩

theorem Tended.accepted (κ : Crypto) (hn : n.Tended none none) (hinv : n.Inv)
    (result : Option (Option Endpoint)) : (n.accepted κ result).Tended none none := by
  have hidle : Aloof n { n with accepting := false } :=
    ⟨rfl, rfl, rfl, rfl, fun _ => rfl, fun _ => rfl⟩
  have hinv' : ({ n with accepting := false } : PeerNetwork).Inv := hinv.of_eq rfl rfl rfl
  refine (aloof_acceptNext _).tended ?_
  match result with
  | none =>
      rw [openAccepted]
      split
      · exact hidle.tended hn
      · exact (aloof_emit _ _).tended (hidle.tended hn)
  | some none => exact (hidle.tended hn).createInbound κ hinv' none
  | some (some remote) =>
      rw [openAccepted]
      split
      · exact (aloof_emit _ _).tended (hidle.tended hn)
      · exact (hidle.tended hn).createInbound κ hinv' (some remote)

/-- The attempt is over, and its target waited for by nobody. -/
theorem Tended.idle (hn : n.Tended none none) (t : Nat) :
    (n.modifyTarget t fun target => { target with connecting := false }).Tended (some t) none := by
  refine (hn.open_hole t).modifyTarget (fun _ h => h) (fun target htarget henabled => ?_)
    fun _ _ _ h => h
  have h := hn.each t target htarget henabled
  exact ⟨fun hne => absurd rfl hne, fun id hid => ⟨rfl, (h.served id hid).2⟩, h.owned⟩

/-- A connection attempt fails, or becomes the session of its target. -/
theorem Tended.connected (κ : Crypto) (hn : n.Tended none none) (hinv : n.Inv) {target : Target}
    (ht : n.targetObjects t = some target) (hconnecting : target.connecting = true)
    (result : Option (Option Endpoint)) : (n.connected κ t target result).Tended none none := by
  have hidle := hn.idle t
  have hobject : (n.modifyTarget t fun target =>
      { target with connecting := false }).targetObjects t
        = some { target with connecting := false } := by
    rw [targetObjects_modifyTarget, if_pos rfl, ht]
    rfl
  have hdisabled : target.enabled ≠ true → (n.modifyTarget t fun target =>
      { target with connecting := false }).Tended none none := by
    intro hdisabled
    refine hidle.close_hole fun other hother henabled => ?_
    rw [hobject] at hother
    cases hother
    exact absurd henabled hdisabled
  cases result with
  | none =>
      rw [PeerNetwork.connected]
      split
      · exact ((aloof_emit _ _).tended hidle).scheduleReconnect
      · rename_i hneither
        exact hdisabled fun henabled => hneither
          ⟨by rw [hn.running]; exact Bool.false_ne_true, henabled⟩
  | some endpoint =>
      rw [PeerNetwork.connected]
      split
      · rename_i hreturns
        rcases hreturns with hstopping | hoff
        · rw [hn.running] at hstopping
          cases hstopping
        · exact hdisabled hoff
      · obtain ⟨hcreated, hopen, htargetOf, htargets⟩ := hidle.createSession κ
          ((quiet_modifyTarget n t _).inv hinv) .outbound endpoint (some t)
          fun x hx => by cases hx; exact hn.fresh t target ht
        refine hcreated.modifyTarget (fun _ h => h) (fun old hold henabled => ?_)
          fun other old hne h => ?_
        · rw [htargets, hobject] at hold
          cases hold
          have h := hcreated.each t _ ((congrFun htargets t).trans hobject) henabled
          refine ⟨fun _ => Or.inr (Or.inl rfl), fun id hid => ?_, fun id hid hidt _ => ?_⟩
          · cases hid
            exact ⟨rfl, hopen, htargetOf⟩
          · -- an attempt was under way, so there was no session
            by_contra hne
            have hnamed := h.owned id hid hidt
              fun heq => hne (congrArg some (Option.some.inj heq).symm)
            have hserved := ((hn.each t target ht henabled).served id hnamed).1
            rw [hconnecting] at hserved
            cases hserved
        · have hh := h.of_ne_hole hne
          refine ⟨hh.waits, hh.served, fun id hid hidt _ => h.owned id hid hidt ?_⟩
          intro heq
          rw [Option.some.inj heq] at hidt
          exact hne (Option.some.inj (hidt.symm.trans htargetOf))

/-- A new target, waited for by nobody yet. -/
theorem Tended.newTarget (hn : n.Tended none none) (endpoint : Endpoint) :
    (n.newTarget endpoint).Tended (some n.nextTarget) none := by
  have htargets : ∀ x, (n.newTarget endpoint).targetObjects x
      = if x = n.nextTarget then some { endpoint } else n.targetObjects x :=
    fun x => Function.update_apply ..
  refine ⟨hn.running, fun x target hx => ?_, fun x t hx => ?_, fun entry hentry => ?_, ?_,
    fun x target hx henabled => ?_⟩
  · show x < n.nextTarget + 1
    rw [htargets] at hx
    split at hx
    · omega
    · have := hn.fresh x target hx
      omega
  · have := hn.bound x t hx
    show t < n.nextTarget + 1
    omega
  · rw [htargets]
    rcases List.mem_append.mp hentry with hold | hnew
    · obtain ⟨target, htarget, henabled⟩ := hn.known entry hold
      have := hn.fresh entry.2 target htarget
      rw [if_neg (by omega)]
      exact ⟨target, htarget, henabled⟩
    · rw [List.mem_singleton.mp hnew]
      exact ⟨{ endpoint }, if_pos rfl, rfl⟩
  · show ((n.targets ++ [(endpoint, n.nextTarget)]).map Prod.snd).Nodup
    rw [List.map_append, List.nodup_append]
    refine ⟨hn.distinct, List.nodup_singleton _, fun x hx y hy => ?_⟩
    obtain ⟨entry, hentry, rfl⟩ := List.mem_map.mp hx
    obtain ⟨target, htarget, -⟩ := hn.known entry hentry
    have hlt := hn.fresh entry.2 target htarget
    rw [List.mem_singleton.mp hy]
    exact Nat.ne_of_lt hlt
  rw [htargets] at hx
  split at hx
  · rename_i heq
    cases hx
    refine ⟨fun hne => absurd (congrArg some heq) hne, (fun id hid => by cases hid),
      fun id _ hid => ?_⟩
    -- no session has the new target
    have hlt := hn.bound id x hid
    omega
  · have h := hn.each x target hx henabled
    exact ⟨fun _ => h.waits (Option.some_ne_none x), h.served, h.owned⟩

theorem Tended.addTarget (hn : n.Tended none none) (endpoint : Endpoint)
    (hroom : (n.targets.find? fun entry => entry.1 = endpoint) = none → n.isFull = false) :
    (n.addTarget endpoint).Tended none none := by
  rw [PeerNetwork.addTarget]
  cases hfind : n.targets.find? fun entry => entry.1 = endpoint with
  | none => exact (hn.newTarget endpoint).beginConnect (hroom hfind)
  | some entry =>
      dsimp only
      split
      · exact hn.beginConnect_again entry.2
      · exact hn

theorem eraseTarget_stop (n : PeerNetwork) (id : Nat) (reason : StopReason) (endpoint : Endpoint) :
    (n.stop id reason true false).eraseTarget endpoint
      = (n.eraseTarget endpoint).stop id reason true false := by
  show (if n.isOpen id then (n.modifySession id Session.halt).sessionStopped id reason false
      else n).eraseTarget endpoint
    = if n.isOpen id then
        ((n.eraseTarget endpoint).modifySession id Session.halt).sessionStopped id reason false
      else n.eraseTarget endpoint
  split
  · rw [sessionStopped, sessionStopped, releaseTarget, releaseTarget]
    show PeerNetwork.eraseTarget (match ((n.modifySession id Session.halt).objects id).bind
        Session.target with
      | none => _
      | some t => _) endpoint = match ((n.modifySession id Session.halt).objects id).bind
        Session.target with
      | none => _
      | some t => _
    cases ((n.modifySession id Session.halt).objects id).bind Session.target with
    | none => rfl
    | some t =>
        show PeerNetwork.eraseTarget (if (n.targetObjects t).bind Target.sessionId = some id
          then _ else _) endpoint = if (n.targetObjects t).bind Target.sessionId = some id
          then _ else _
        split <;> rfl
  · rfl

/-- A target that is removed is erased first, as far as the invariant is concerned. -/
theorem Tended.disable (hn : n.Tended none none) {entry : Endpoint × Nat}
    (hentry : entry ∈ n.targets) :
    ((n.eraseTarget entry.1).modifyTarget entry.2 Target.disable).Tended none none := by
  have herased : ∀ other ∈ (n.eraseTarget entry.1).targets,
      other ∈ n.targets ∧ other.2 ≠ entry.2 := by
    intro other hother
    obtain ⟨hmem, hne⟩ := List.mem_filter.mp hother
    refine ⟨hmem, fun heq => ?_⟩
    rw [List.inj_on_of_nodup_map hn.distinct hmem hentry heq] at hne
    simp at hne
  have htargets : ∀ x, ((n.eraseTarget entry.1).modifyTarget entry.2 Target.disable).targetObjects x
      = if x = entry.2 then (n.targetObjects entry.2).map Target.disable else n.targetObjects x :=
    targetObjects_modifyTarget _ _ _
  refine ⟨hn.running, fun x target hx => ?_, hn.bound, fun other hother => ?_, ?_,
    fun x target hx henabled => ?_⟩
  · rw [htargets] at hx
    split at hx
    · rename_i heq
      obtain ⟨old, hold, -⟩ := Option.map_eq_some_iff.mp hx
      rw [heq]
      exact hn.fresh entry.2 old hold
    · exact hn.fresh x target hx
  · obtain ⟨hmem, hne⟩ := herased other hother
    rw [htargets, if_neg hne]
    exact hn.known other hmem
  · exact hn.distinct.sublist (List.filter_sublist.map Prod.snd)
  rw [htargets] at hx
  split at hx
  · obtain ⟨old, -, rfl⟩ := Option.map_eq_some_iff.mp hx
    cases henabled
  · exact (hn.each x target hx henabled).congr (fun _ => rfl) fun _ => rfl

theorem Tended.removeTarget (hn : n.Tended none none) (endpoint : Endpoint) :
    (n.removeTarget endpoint).Tended none none := by
  rw [PeerNetwork.removeTarget]
  cases hfind : n.targets.find? fun entry => entry.1 = endpoint with
  | none => exact (aloof_emit n _).tended hn
  | some entry =>
      have hentry := List.mem_of_find?_eq_some hfind
      have hendpoint := List.find?_some hfind
      obtain rfl : entry.1 = endpoint := of_decide_eq_true hendpoint
      obtain ⟨target, htarget, henabled⟩ := hn.known entry hentry
      have hdisabled := hn.disable hentry
      refine (aloof_emit _ _).tended ?_
      rw [stopTargetSession]
      have hsession : ((n.modifyTarget entry.2 Target.disable).targetObjects entry.2).bind
          Target.sessionId = target.sessionId := by
        rw [targetObjects_modifyTarget, if_pos rfl, htarget]
        rfl
      rw [hsession]
      cases hid : target.sessionId with
      | none => exact hdisabled
      | some id =>
          dsimp only
          split
          · rw [eraseTarget_stop]
            refine (hdisabled.pend id).stop _ (fun _ _ x other hx hother hother' => ?_)
              fun _ => hdisabled
            -- the session is that of the target that was disabled
            have hserved := ((hn.each entry.2 target htarget henabled).served id hid).2.2
            have hx : n.targetOf id = some x := hx
            rw [hserved] at hx
            cases hx
            have hother : ((n.eraseTarget entry.1).modifyTarget entry.2
                Target.disable).targetObjects entry.2 = some other := hother
            rw [targetObjects_modifyTarget, if_pos rfl] at hother
            obtain ⟨old, -, rfl⟩ := Option.map_eq_some_iff.mp hother
            cases hother'
          · exact hdisabled

/-! ## Runs -/

theorem tended_start (config : PeerNetworkConfig) (sessionNonce : FixedBytes 16) :
    (start config sessionNonce).Tended none none where
  running := rfl
  fresh _ _ h := by cases h
  bound _ _ h := by cases h
  known _ h := absurd h List.not_mem_nil
  distinct := List.nodup_nil
  each _ _ h := by cases h

/-- A timer that has fired is armed no longer. -/
theorem Tended.fire (hn : n.Tended none none) (t : Nat) :
    (n.modifyTarget t fun target => { target with timerArmed := false }).Tended (some t) none := by
  refine (hn.open_hole t).modifyTarget (fun _ h => h) (fun target htarget henabled => ?_)
    fun _ _ _ h => h
  have h := hn.each t target htarget henabled
  exact ⟨fun hne => absurd rfl hne, h.served, h.owned⟩

theorem Tended.reconnectTimer (hn : n.Tended none none) {target : Target}
    (ht : n.targetObjects t = some target)
    (hroom : n.isFull = true → target.enabled = true →
      target.connecting = true ∨ target.sessionId.isSome = true) :
    ((n.modifyTarget t fun target => { target with timerArmed := false }).beginConnect
      t).Tended none none := by
  cases hfull : n.isFull with
  | false => exact (hn.fire t).beginConnect hfull
  | true =>
      have hfull' : (n.modifyTarget t fun target =>
          { target with timerArmed := false }).isFull = true := hfull
      rw [beginConnect_of_isFull hfull']
      refine (hn.fire t).close_hole fun other hother henabled => ?_
      rw [targetObjects_modifyTarget, if_pos rfl, ht] at hother
      cases hother
      rcases hroom hfull henabled with hconnecting | hsession
      · exact Or.inl hconnecting
      · exact Or.inr (Or.inl hsession)

/-- Every handler keeps the invariant, if it leaves no target behind and is not `stop`. -/
theorem tended_step (κ : Crypto) (hinv : n.Inv) (hn : n.Tended none none) {e : NetworkEvent}
    (hbefore : e ≠ .shutdown) (h : n.strands κ e = false) : (n.step κ e).Tended none none := by
  have hfields : ∀ {m n' : PeerNetwork}, m.Tended none none → n'.stopping = m.stopping →
      n'.nextTarget = m.nextTarget → n'.targetObjects = m.targetObjects →
        n'.targets = m.targets → n'.objects = m.objects → n'.Tended none none := by
    intro m n' hm hstopping hnext hobjects htargets hsessions
    refine Aloof.tended ⟨hstopping, hnext, hobjects, htargets, fun id => ?_, fun id => ?_⟩ hm
    · rw [targetOf, targetOf, hsessions]
    · rw [isOpen, isOpen, hsessions]
  have hundefined : ∀ m : PeerNetwork, m.Tended none none →
      Tended { m with undefined := true } none none :=
    fun m hm => hfields hm rfl rfl rfl rfl rfl
  cases e with
  | accepted result =>
      rw [step]
      split
      · exact hn.accepted κ hinv result
      · exact hn
  | acceptRetry =>
      rw [step]
      split
      · exact (aloof_acceptNext _).tended (hfields hn rfl rfl rfl rfl rfl)
      · exact hn
  | connected t result =>
      rw [step]
      cases ht : n.targetObjects t with
      | none => exact hn
      | some target =>
          dsimp only
          split
          · rename_i hconnecting
            exact hn.connected κ hinv ht hconnecting result
          · exact hn
  | reconnectTimer t =>
      rw [step]
      split
      · rename_i harmed
        obtain ⟨target, ht, harmed⟩ := Option.any_eq_true _ _ |>.mp harmed
        refine hn.reconnectTimer ht fun hfull henabled => ?_
        rw [strands, ht, Option.any_some] at h
        by_contra hneither
        obtain ⟨hconnecting, hsession⟩ := not_or.mp hneither
        refine of_decide_eq_false h ⟨hfull, harmed, henabled, hconnecting, ?_⟩
        rw [Option.not_isSome_iff_eq_none.mp hsession]
        rfl
      · exact hn
  | headerRead id result =>
      rw [step]
      cases n.objects id with
      | none => exact hn
      | some s =>
          dsimp only
          split
          · exact hn.headerRead id result
          · exact hn
  | payloadRead id result =>
      rw [step]
      cases hs : n.objects id with
      | none => exact hn
      | some s =>
          dsimp only
          cases hreading : s.reading with
          | nothing => exact hn
          | header => exact hn
          | payload header =>
              dsimp only
              split
              swap
              · exact hn
              rename_i hreadable
              refine hn.payloadRead κ hinv.listed hs ?_
              rintro payload hello rfl hcheck hvalid hnew htype
              rw [strands, hs, Option.any_some, hreading, hcheck] at h
              refine Bool.eq_false_iff.mpr fun habandons => ?_
              exact of_decide_eq_false h ⟨hreadable, hvalid, hnew, htype, habandons⟩
  | written id ok =>
      rw [step]
      split
      · exact hn.written id ok
      · exact hn
  | handshakeTimer id => exact hn.handshakeTimer id
  | idleTimer id => exact hn.idleTimer κ id
  | pongTimer id nonce => exact hn.pongTimer id nonce
  | connect address port =>
      rw [step]
      cases hcheck : n.checkEndpoint address port with
      | none => exact hn
      | some endpoint =>
          refine hn.addTarget endpoint fun hnew => ?_
          rw [strands, hcheck, Option.any_some] at h
          refine Bool.eq_false_iff.mpr fun hfull => of_decide_eq_false h ⟨hfull, ?_⟩
          rw [hnew]
          rfl
  | disconnect address port =>
      rw [step]
      cases n.checkEndpoint address port with
      | none => exact hn
      | some endpoint => exact hn.removeTarget endpoint
  | reservePing => exact hfields hn rfl rfl rfl rfl rfl
  | pingAll nonce =>
      exact eachSession_invariant (I := fun m => m.Tended none none)
        (fun m id hm => hm.sendPing κ id nonce) hundefined _ hn
  | updateTip height tip => exact hfields hn rfl rfl rfl rfl rfl
  | sendMessage id type payload =>
      rw [step]
      split
      · exact hn.sendMessage κ id type payload
      · exact hn
  | broadcast type payload excludedPeer =>
      refine eachSession_invariant (I := fun m => m.Tended none none) (fun m id hm => ?_)
        hundefined _ hn
      split
      · exact hm
      · exact hm.sendMessage κ id type payload
  | shutdown => exact absurd rfl hbefore

/-- In every run before `stop` in which no handler leaves a target behind and no loop over the
sessions stops one, nothing undefined happens, and every configured target is dialled, or has
an open session, or waits for its timer; and a target with an open session of its own names
that session and is not dialled. -/
theorem configured_peers_kept (κ : Crypto) (config : PeerNetworkConfig)
    (sessionNonce : FixedBytes 16) (events : List NetworkEvent)
    (h : Runs.Along (step κ)
      (fun n e => e ≠ .shutdown ∧ n.strands κ e = false ∧ n.overruns κ e = false)
      (start config sessionNonce) events) :
    let n := (start config sessionNonce).run κ events
    n.undefined = false ∧ ∀ entry ∈ n.targets, ∃ target, n.targetObjects entry.2 = some target ∧
      target.enabled = true ∧
      (target.connecting = true ∨
        (∃ id ∈ n.sessions, target.sessionId = some id ∧ n.isOpen id = true) ∨
        target.timerArmed = true) ∧
      ∀ id, n.isOpen id = true → n.targetOf id = some entry.2 →
        target.connecting = false ∧ target.sessionId = some id := by
  intro n
  have hall : n.undefined = false ∧ n.Inv ∧ n.Tended none none :=
    h.invariant (I := fun n => n.undefined = false ∧ n.Inv ∧ n.Tended none none)
      (fun n e he hn => ⟨(defined_step hn.2.1 he.2.2).trans hn.1, inv_step κ hn.2.1 e,
        tended_step κ hn.2.1 hn.2.2 he.1 he.2.1⟩)
      ⟨rfl, inv_start config sessionNonce, tended_start config sessionNonce⟩
  obtain ⟨hdefined, hinv, htended⟩ := hall
  refine ⟨hdefined, fun entry hentry => ?_⟩
  obtain ⟨target, htarget, henabled⟩ := htended.known entry hentry
  have hattended := htended.each entry.2 target htarget henabled
  refine ⟨target, htarget, henabled, ?_, fun id hopen hid => ?_⟩
  · rcases hattended.waits (Option.some_ne_none _) with hconnecting | hsession | harmed
    · exact Or.inl hconnecting
    · obtain ⟨id, hid⟩ := Option.isSome_iff_exists.mp hsession
      have hopen := (hattended.served id hid).2.1
      exact Or.inr (Or.inl ⟨id, (hinv.listed id).mpr hopen, hid, hopen⟩)
    · exact Or.inr (Or.inr harmed)
  · have hnames := hattended.owned id hopen hid (Option.some_ne_none id)
    exact ⟨(hattended.served id hnames).1, hnames⟩

/-- An address of the local host. -/
def loopback (last : UInt8) : FixedBytes 4 := .cons 127 (.cons 0 (.cons 0 (.cons last .nil)))

/-- A seed node. -/
def seed : Endpoint := ⟨loopback 1, 7000⟩

/-- The seed is dialled, its session ends before the handshake, and it is dialled again. -/
theorem configured_peers_kept_redialled :
    let events : List NetworkEvent :=
      [.connect (some seed.address) seed.port, .connected 0 (some (some seed)), .handshakeTimer 1,
        .reconnectTimer 0]
    let n := (start regtestConfig (List.Vector.replicate 16 1)).run reference events
    n.targets = [(seed, 0)] ∧ n.isOpen 1 = false ∧
      ∀ entry ∈ n.targets, ∃ target, n.targetObjects entry.2 = some target ∧
        target.enabled = true ∧
        (target.connecting = true ∨
          (∃ id ∈ n.sessions, target.sessionId = some id ∧ n.isOpen id = true) ∨
          target.timerArmed = true) ∧
        ∀ id, n.isOpen id = true → n.targetOf id = some entry.2 →
          target.connecting = false ∧ target.sessionId = some id := by
  intro events n
  refine ⟨by decide +kernel, by decide +kernel, ?_⟩
  exact (configured_peers_kept reference regtestConfig (List.Vector.replicate 16 1) events
    (by decide +kernel)).2

/-! ## A forgotten peer -/

/-- Sixteen sockets from each of four addresses are accepted. -/
def crowd : List NetworkEvent :=
  (List.range maximumPeerCount).map fun k =>
    .accepted (some (some ⟨loopback (UInt8.ofNat (k / 16 + 2)), UInt16.ofNat (40000 + k)⟩))

/-- A peer configured while the limit is reached is neither dialled nor waited for. -/
theorem configured_peer_forgotten :
    let events : List NetworkEvent := crowd ++ [.connect (some seed.address) seed.port]
    let n := (start regtestConfig (List.Vector.replicate 16 1)).run reference events
    n.stopping = false ∧ n.targets = [(seed, 0)] ∧
      (n.targetObjects 0).map (fun target =>
        (target.enabled, target.connecting, target.sessionId, target.timerArmed))
          = some (true, false, none, false) := by
  decide +kernel

end PeerNetwork

end BBC
