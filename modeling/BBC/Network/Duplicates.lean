/-
# `BBC.Network.Duplicates` — two nodes that connect to each other

Each of two nodes opens a connection to the other, so each holds two sessions with
the same remote end.  Either node decides on its own, when the second `HELLO`
arrives, which of the two to stop:

    own nonce smaller   keep the outbound session
    own nonce larger    keep the inbound session

Both rules name the connection that the node with the smaller nonce opened.  The four
`HELLO`s are processed in any order.
-/
import BBC.Network.Arrival
import BBC.Crypto.Reference

namespace BBC

namespace PeerNetwork

variable {κ : Crypto} {n n' : PeerNetwork} {id other : Nat}

/-! ## One end -/

theorem Apart.waiting (h : Apart id n n') {direction : PeerDirection} (hne : other ≠ id)
    (hw : n.Waiting other direction) : n'.Waiting other direction := by
  obtain ⟨s, hs, hrest⟩ := hw
  exact ⟨s, (h.objects other hne).trans hs, hrest⟩

theorem Apart.isOpen (h : Apart id n n') (hne : other ≠ id) :
    n'.isOpen other = n.isOpen other := by
  rw [PeerNetwork.isOpen, PeerNetwork.isOpen, h.objects other hne]

theorem Apart.targetOf (h : Apart id n n') (hne : other ≠ id) :
    n'.targetOf other = n.targetOf other := by
  rw [PeerNetwork.targetOf, PeerNetwork.targetOf, h.objects other hne]

theorem Apart.compatible (h : Apart id n n') {sender : PeerNetwork} :
    Compatible n' sender ↔ Compatible n sender := by
  rw [Compatible, Compatible, h.config, h.nonce]

theorem Apart.preferred (h : Apart id n n') (nonce : FixedBytes 16) :
    n'.preferred nonce = n.preferred nonce := by
  rw [PeerNetwork.preferred, PeerNetwork.preferred, h.nonce]

theorem inv_arrives (κ : Crypto) (hn : n.Inv) (id : Nat) (frame : Bytes) :
    (n.arrives κ id frame).Inv :=
  inv_step κ (inv_step κ hn _) _

theorem Waiting.isOpen {direction : PeerDirection} (h : n.Waiting id direction) :
    n.isOpen id = true := by
  obtain ⟨s, hs, hopen, -⟩ := h
  exact isOpen_eq_true.mpr ⟨s, hs, hopen⟩

theorem Waiting.ne {direction direction' : PeerDirection} (h : n.Waiting id direction)
    (h' : n.Waiting other direction') (hne : direction ≠ direction') : id ≠ other := by
  rintro rfl
  obtain ⟨s, hs, -, hd, -⟩ := h
  obtain ⟨s', hs', -, hd', -⟩ := h'
  rw [hs] at hs'
  cases hs'
  exact hne (hd.symm.trans hd')

/-- Both sessions of a node wait for the `HELLO` of the same remote end, and no other
session has been greeted by it. -/
structure Facing (n sender : PeerNetwork) (kept gone : Nat) : Prop where
  inv : n.Inv
  kept : n.Waiting kept (n.preferred sender.sessionNonce)
  gone : ∃ direction, n.Waiting gone direction ∧ direction ≠ n.preferred sender.sessionNonce
  alone : ∀ x, ¬ n.Greeted x sender.sessionNonce

/-- What both `HELLO`s together lead to. -/
structure Resolved (n n' : PeerNetwork) (kept gone : Nat) : Prop where
  stopped : n'.isOpen gone = false
  attached : ∀ t, n.targetOf gone = some t → n.targetOf kept = none → n'.isOpen kept = true →
    n'.targetOf kept = some t ∧
      ∀ target, n'.targetObjects t = some target → target.sessionId = some kept

section OneEnd

variable {sender : PeerNetwork} {kept gone : Nat} (h : Facing n sender kept gone)

include h

theorem Facing.ne : kept ≠ gone := by
  obtain ⟨direction, hw, hne⟩ := h.gone
  exact h.kept.ne hw hne.symm

/-- One `HELLO` spares the kept session. -/
theorem Facing.one (tip : UInt64 × Hash256) {id : Nat} (hid : id = kept ∨ id = gone) :
    (n.arrives κ id (sender.greetingFrame κ tip)).duplicates kept = n.duplicates kept ∧
      (Compatible n sender →
        (n.arrives κ id (sender.greetingFrame κ tip)).isOpen kept = true) := by
  obtain ⟨direction, hgone, -⟩ := h.gone
  have hw : ∃ direction, n.Waiting id direction := by
    rcases hid with rfl | rfl
    · exact ⟨_, h.kept⟩
    · exact ⟨_, hgone⟩
  obtain ⟨direction', hw⟩ := hw
  by_cases hcompatible : Compatible n sender
  · obtain ⟨hapart, hgreeted, -⟩ := arrives_first (κ := κ) h.inv hw hcompatible h.alone tip
    refine ⟨hapart.duplicates kept, fun _ => ?_⟩
    rcases hid with rfl | rfl
    · exact hgreeted.isOpen
    · rw [hapart.isOpen h.ne]
      exact h.kept.isOpen
  · exact ⟨(arrives_refused hw hcompatible tip).1.duplicates kept, fun hc => absurd hc hcompatible⟩

/-- The kept connection is greeted first. -/
theorem Facing.kept_gone (tip tip' : UInt64 × Hash256) :
    ((n.arrives κ kept (sender.greetingFrame κ tip)).arrives κ gone
        (sender.greetingFrame κ tip')).duplicates kept = n.duplicates kept ∧
      (Compatible n sender → ((n.arrives κ kept (sender.greetingFrame κ tip)).arrives κ gone
        (sender.greetingFrame κ tip')).isOpen kept = true) ∧
      Resolved n ((n.arrives κ kept (sender.greetingFrame κ tip)).arrives κ gone
        (sender.greetingFrame κ tip')) kept gone := by
  obtain ⟨direction, hgone, hlosing⟩ := h.gone
  by_cases hcompatible : Compatible n sender
  · obtain ⟨hapart, hgreeted, htarget, -⟩ :=
      arrives_first (κ := κ) h.inv h.kept hcompatible h.alone tip
    obtain ⟨hopen, hspared, hattached⟩ := arrives_yielding (κ := κ)
      (inv_arrives κ h.inv kept (sender.greetingFrame κ tip)) (hapart.waiting h.ne.symm hgone)
      (hapart.compatible.mpr hcompatible) hgreeted h.ne
      (by rw [hapart.preferred]; exact hlosing) tip'
    refine ⟨hspared.trans (hapart.duplicates kept), fun _ => ?_, ?_, ?_⟩
    · rw [hopen, hgreeted.isOpen]
      simp [h.ne]
    · rw [hopen]
      simp
    · intro t hold hnone _
      exact hattached t ((hapart.targetOf h.ne.symm).trans hold) (htarget.trans hnone)
  · obtain ⟨hapart, hclosed⟩ := arrives_refused (κ := κ) h.kept hcompatible tip
    obtain ⟨hapart', hclosed'⟩ := arrives_refused (κ := κ) (hapart.waiting h.ne.symm hgone)
      (mt hapart.compatible.mp hcompatible) tip'
    refine ⟨(hapart'.duplicates kept).trans (hapart.duplicates kept),
      fun hc => absurd hc hcompatible, hclosed', ?_⟩
    intro t _ _ hopen
    rw [hapart'.isOpen h.ne, hclosed] at hopen
    cases hopen

/-- The other connection is greeted first. -/
theorem Facing.gone_kept (tip tip' : UInt64 × Hash256) :
    ((n.arrives κ gone (sender.greetingFrame κ tip)).arrives κ kept
        (sender.greetingFrame κ tip')).duplicates kept = n.duplicates kept ∧
      (Compatible n sender → ((n.arrives κ gone (sender.greetingFrame κ tip)).arrives κ kept
        (sender.greetingFrame κ tip')).isOpen kept = true) ∧
      Resolved n ((n.arrives κ gone (sender.greetingFrame κ tip)).arrives κ kept
        (sender.greetingFrame κ tip')) kept gone := by
  obtain ⟨direction, hgone, hlosing⟩ := h.gone
  by_cases hcompatible : Compatible n sender
  · obtain ⟨hapart, hgreeted, htarget, hdirected⟩ :=
      arrives_first (κ := κ) h.inv hgone hcompatible h.alone tip
    have hnot : (n.arrives κ gone (sender.greetingFrame κ tip)).directed gone
        (n.preferred sender.sessionNonce) = false := by
      obtain ⟨s, hs, -, -⟩ := hgreeted
      rw [directed, hs] at hdirected ⊢
      refine decide_eq_false fun heq => hlosing ?_
      exact (of_decide_eq_true hdirected).symm.trans heq
    obtain ⟨hopen, hspared, hattached⟩ := arrives_replacing (κ := κ)
      (inv_arrives κ h.inv gone (sender.greetingFrame κ tip)) (hapart.waiting h.ne h.kept)
      (hapart.compatible.mpr hcompatible) hgreeted h.ne.symm
      (hapart.preferred _).symm hnot tip'
    refine ⟨hspared.trans (hapart.duplicates kept), fun _ => ?_, ?_, ?_⟩
    · rw [hopen, hapart.isOpen h.ne, h.kept.isOpen]
      simp [h.ne]
    · rw [hopen]
      simp
    · intro t hold hnone _
      exact hattached t (htarget.trans hold) ((hapart.targetOf h.ne).trans hnone)
  · obtain ⟨hapart, hclosed⟩ := arrives_refused (κ := κ) hgone hcompatible tip
    obtain ⟨hapart', hclosed'⟩ := arrives_refused (κ := κ) (hapart.waiting h.ne h.kept)
      (mt hapart.compatible.mp hcompatible) tip'
    refine ⟨(hapart'.duplicates kept).trans (hapart.duplicates kept),
      fun hc => absurd hc hcompatible, ?_, ?_⟩
    · rw [hapart'.isOpen h.ne.symm]
      exact hclosed
    · intro t _ _ hopen
      rw [hclosed'] at hopen
      cases hopen

end OneEnd

end PeerNetwork

/-! ## Two ends -/

/-- The two nodes. -/
inductive End where
  | first
  | second
  deriving DecidableEq

/-- The two connections, by the node that opened them. -/
inductive Link where
  | ofFirst
  | ofSecond
  deriving DecidableEq

namespace End

/-- The remote end. -/
def other : End → End
  | .first => .second
  | .second => .first

/-- The connection that an end has opened. -/
def opened : End → Link
  | .first => .ofFirst
  | .second => .ofSecond

end End

namespace Link

def opposite : Link → Link
  | .ofFirst => .ofSecond
  | .ofSecond => .ofFirst

/-- The direction of a connection at an end. -/
def direction (link : Link) (e : End) : PeerDirection :=
  if e.opened = link then .outbound else .inbound

end Link

/-- Two nodes. -/
structure Pair where
  node : End → PeerNetwork

namespace Pair

open PeerNetwork

/-- The connection opened by the node with the smaller nonce. -/
def kept (p : Pair) : Link :=
  if (p.node .first).sessionNonce.lessThan (p.node .second).sessionNonce then .ofFirst
  else .ofSecond

/-- A `HELLO` is processed: at an end, on a connection. -/
def process (κ : Crypto) (session : End → Link → Nat) (frames : End → Link → Bytes) (p : Pair)
    (m : End × Link) : Pair :=
  ⟨Function.update p.node m.1 ((p.node m.1).arrives κ (session m.1 m.2) (frames m.1 m.2))⟩

/-- The two nodes hold one connection in each direction, on which no `HELLO` has been
processed yet. -/
structure Connected (κ : Crypto) (session : End → Link → Nat) (p : Pair) : Prop where
  reachable : ∀ e, ∃ config sessionNonce events,
    p.node e = (PeerNetwork.start config sessionNonce).run κ events
  waiting : ∀ e link, (p.node e).Waiting (session e link) (link.direction e)
  only : ∀ e id, ¬ (p.node e).Greeted id (p.node e.other).sessionNonce
  different : (p.node .first).sessionNonce ≠ (p.node .second).sessionNonce

/-! ### Which connection is kept -/

theorem lessThan_swap {n : Nat} {a b : FixedBytes n} (hne : a ≠ b) :
    b.lessThan a = !a.lessThan b := by
  have hswap : compare b a = (compare a b).swap := Std.OrientedOrd.eq_swap
  rw [FixedBytes.lessThan, FixedBytes.lessThan, hswap]
  cases hcompare : compare a b with
  | lt => rfl
  | eq => exact absurd (Std.LawfulEqOrd.eq_of_compare hcompare) hne
  | gt => rfl

/-- Each end prefers the connection that is kept. -/
theorem direction_kept {p : Pair}
    (hne : (p.node .first).sessionNonce ≠ (p.node .second).sessionNonce) (e : End) :
    p.kept.direction e = (p.node e).preferred (p.node e.other).sessionNonce := by
  have hswap := lessThan_swap hne
  cases e with
  | first =>
      rw [kept, preferred]
      show _ = if (p.node .first).sessionNonce.lessThan (p.node .second).sessionNonce then _ else _
      cases (p.node .first).sessionNonce.lessThan (p.node .second).sessionNonce with
      | true => rfl
      | false => rfl
  | second =>
      rw [kept, preferred]
      show _ = if (p.node .second).sessionNonce.lessThan (p.node .first).sessionNonce then _ else _
      rw [hswap]
      cases (p.node .first).sessionNonce.lessThan (p.node .second).sessionNonce with
      | true => rfl
      | false => rfl

theorem direction_opposite (link : Link) (e : End) :
    link.opposite.direction e ≠ link.direction e := by
  cases link <;> cases e <;> decide

theorem Connected.facing {κ : Crypto} {session : End → Link → Nat} {p : Pair}
    (h : p.Connected κ session) (e : End) :
    Facing (p.node e) (p.node e.other) (session e p.kept) (session e p.kept.opposite) := by
  have hkept := direction_kept h.different e
  obtain ⟨config, sessionNonce, events, hrun⟩ := h.reachable e
  refine ⟨?_, ?_, ⟨_, h.waiting e p.kept.opposite, ?_⟩, h.only e⟩
  · rw [hrun]
    exact inv_run κ config sessionNonce events
  · rw [← hkept]
    exact h.waiting e p.kept
  · rw [← hkept]
    exact direction_opposite p.kept e

/-! ### Every order -/

/-- The connections whose `HELLO` an end processes, in order. -/
def linksOf (e : End) (order : List (End × Link)) : List Link :=
  (order.filter fun m => m.1 = e).map Prod.snd

/-- An end sees its own `HELLO`s only. -/
theorem node_run (κ : Crypto) (session : End → Link → Nat) (frames : End → Link → Bytes) (e : End)
    (order : List (End × Link)) :
    ∀ p : Pair, (Runs.run (process κ session frames) p order).node e
      = (linksOf e order).foldl (fun n link => n.arrives κ (session e link) (frames e link))
          (p.node e) := by
  induction order with
  | nil => intro p; rfl
  | cons m order ih =>
      intro p
      rw [Runs.run_cons, ih, linksOf, linksOf, process]
      by_cases heq : m.1 = e
      · rw [List.filter_cons_of_pos (by simpa using heq), List.map_cons, List.foldl_cons, ← heq]
        dsimp only
        rw [Function.update_self]
      · rw [List.filter_cons_of_neg (by simpa using heq)]
        dsimp only
        rw [Function.update_of_ne fun h => heq h.symm]

theorem nodup_linksOf {e : End} {order : List (End × Link)} (h : order.Nodup) :
    (linksOf e order).Nodup := by
  refine List.Nodup.map_on ?_ (h.filter _)
  intro m hm m' hm' heq
  have hfst : ∀ {m : End × Link}, m ∈ order.filter (fun m => m.1 = e) → m.1 = e :=
    fun hm => of_decide_eq_true (List.mem_filter.mp hm).2
  exact Prod.ext ((hfst hm).trans (hfst hm').symm) heq

theorem mem_linksOf {e : End} {link : Link} {order : List (End × Link)} :
    link ∈ linksOf e order ↔ (e, link) ∈ order := by
  rw [linksOf, List.mem_map]
  constructor
  · rintro ⟨m, hm, rfl⟩
    obtain ⟨hmem, he⟩ := List.mem_filter.mp hm
    rw [← of_decide_eq_true he]
    exact hmem
  · intro h
    exact ⟨(e, link), List.mem_filter.mpr ⟨h, decide_eq_true rfl⟩, rfl⟩

/-- The orders of at most two connections. -/
theorem orders_of_nodup (kept : Link) {links : List Link} (h : links.Nodup) :
    links = [] ∨ links = [kept] ∨ links = [kept.opposite]
      ∨ links = [kept, kept.opposite] ∨ links = [kept.opposite, kept] := by
  have htwo : ∀ link : Link, link = kept ∨ link = kept.opposite := by
    intro link
    cases link <;> cases kept <;> decide
  match links, h with
  | [], _ => exact Or.inl rfl
  | [a], _ =>
      rcases htwo a with rfl | rfl
      · exact Or.inr (Or.inl rfl)
      · exact Or.inr (Or.inr (Or.inl rfl))
  | [a, b], h =>
      have hne : a ≠ b := fun heq => (List.nodup_cons.mp h).1 (heq ▸ List.mem_singleton_self b)
      rcases htwo a with rfl | rfl <;> rcases htwo b with rfl | rfl
      · exact absurd rfl hne
      · exact Or.inr (Or.inr (Or.inr (Or.inl rfl)))
      · exact Or.inr (Or.inr (Or.inr (Or.inr rfl)))
      · exact absurd rfl hne
  | a :: b :: c :: rest, h =>
      exfalso
      obtain ⟨ha, hbc⟩ := List.nodup_cons.mp h
      obtain ⟨hb, -⟩ := List.nodup_cons.mp hbc
      have hab : a ≠ b := fun heq => ha (heq ▸ List.mem_cons_self)
      have hac : a ≠ c := fun heq => ha (heq ▸ List.mem_cons_of_mem _ List.mem_cons_self)
      have hbc : b ≠ c := fun heq => hb (heq ▸ List.mem_cons_self)
      cases a <;> cases b <;> cases c <;> simp_all

theorem opposite_ne (link : Link) : link.opposite ≠ link := by
  cases link <;> decide

/-- What an end has done after it has processed some of its `HELLO`s. -/
theorem Connected.outcome {κ : Crypto} {session : End → Link → Nat} {p : Pair}
    (h : p.Connected κ session) (e : End) (tips : Link → UInt64 × Hash256) {links : List Link}
    (hlinks : links.Nodup) {q : PeerNetwork}
    (hq : q = links.foldl (fun n link => n.arrives κ (session e link)
      ((p.node e.other).greetingFrame κ (tips link))) (p.node e)) :
    q.duplicates (session e p.kept) = (p.node e).duplicates (session e p.kept) ∧
      (Compatible (p.node e) (p.node e.other) → q.isOpen (session e p.kept) = true) ∧
      (p.kept ∈ links → p.kept.opposite ∈ links →
        Resolved (p.node e) q (session e p.kept) (session e p.kept.opposite)) := by
  have hfacing := h.facing e
  have hne := opposite_ne p.kept
  rcases orders_of_nodup p.kept hlinks with rfl | rfl | rfl | rfl | rfl
  · subst hq
    exact ⟨rfl, fun _ => (h.waiting e p.kept).isOpen, fun hk => absurd hk List.not_mem_nil⟩
  · subst hq
    obtain ⟨hspared, hopen⟩ := hfacing.one (κ := κ) (tips p.kept) (Or.inl rfl)
    exact ⟨hspared, hopen, fun _ hg => absurd (List.mem_singleton.mp hg) hne⟩
  · subst hq
    obtain ⟨hspared, hopen⟩ := hfacing.one (κ := κ) (tips p.kept.opposite) (Or.inr rfl)
    exact ⟨hspared, hopen, fun hk => absurd (List.mem_singleton.mp hk).symm hne⟩
  · subst hq
    obtain ⟨hspared, hopen, hresolved⟩ := hfacing.kept_gone (κ := κ) (tips p.kept)
      (tips p.kept.opposite)
    exact ⟨hspared, hopen, fun _ _ => hresolved⟩
  · subst hq
    obtain ⟨hspared, hopen, hresolved⟩ := hfacing.gone_kept (κ := κ) (tips p.kept.opposite)
      (tips p.kept)
    exact ⟨hspared, hopen, fun _ _ => hresolved⟩

/-- Duplicate connections resolve to one session, and to the same one at both ends. -/
theorem duplicates_resolve (κ : Crypto) :
    -- one node, any order of handlers
    (∀ (config : PeerNetworkConfig) (sessionNonce : FixedBytes 16) (events : List NetworkEvent)
      (id other : Nat) (s s' : Session) (hello hello' : HelloPayload),
      ((PeerNetwork.start config sessionNonce).run κ events).objects id = some s →
      ((PeerNetwork.start config sessionNonce).run κ events).objects other = some s' →
      s.stopped = false → s'.stopped = false →
      s.handshakeComplete = true → s'.handshakeComplete = true →
      s.remoteHello = some hello → s'.remoteHello = some hello' →
      hello.sessionNonce = hello'.sessionNonce → id = other) ∧
    -- two nodes, any order of the four `HELLO`s
    (∀ (session : End → Link → Nat) (p : Pair), p.Connected κ session →
      ∀ (tips : End → Link → UInt64 × Hash256) (order : List (End × Link)), order.Nodup →
      ∀ q : Pair, q = Runs.run (process κ session fun e link =>
          (p.node e.other).greetingFrame κ (tips e link)) p order →
      ∀ e : End,
        -- the connection of the smaller nonce is never stopped as a duplicate
        (q.node e).duplicates (session e p.kept) = (p.node e).duplicates (session e p.kept) ∧
        (Compatible (p.node e) (p.node e.other) → (q.node e).isOpen (session e p.kept) = true) ∧
        -- after both `HELLO`s the other one is stopped, and its target handed over
        ((e, p.kept) ∈ order → (e, p.kept.opposite) ∈ order →
          (q.node e).isOpen (session e p.kept.opposite) = false ∧
          ∀ t, (p.node e).targetOf (session e p.kept.opposite) = some t →
            (p.node e).targetOf (session e p.kept) = none →
            (q.node e).isOpen (session e p.kept) = true →
            (q.node e).targetOf (session e p.kept) = some t ∧
              ∀ target, (q.node e).targetObjects t = some target →
                target.sessionId = some (session e p.kept))) := by
  refine ⟨?_, ?_⟩
  · intro config sessionNonce events id other s s' hello hello' hs hs' hopen hopen' _ _ hg hg' heq
    refine (inv_run κ config sessionNonce events).unique id other hello.sessionNonce
      ⟨s, hs, hopen, ?_⟩ ⟨s', hs', hopen', ?_⟩
    · rw [Session.hasNonce, hg]
      exact decide_eq_true rfl
    · rw [Session.hasNonce, hg']
      exact decide_eq_true heq.symm
  · intro session p h tips order horder q hq e
    have hnode : q.node e = (linksOf e order).foldl (fun n link => n.arrives κ (session e link)
        ((p.node e.other).greetingFrame κ (tips e link))) (p.node e) := by
      rw [hq]
      exact node_run κ session _ e order p
    obtain ⟨hspared, hopen, hresolved⟩ := h.outcome e (tips e) (nodup_linksOf horder) hnode
    refine ⟨hspared, hopen, fun hk hg => ?_⟩
    have hboth := hresolved (mem_linksOf.mpr hk) (mem_linksOf.mpr hg)
    exact ⟨hboth.stopped, hboth.attached⟩

/-! ### Two listeners -/

/-- A node that has opened a connection and accepted one. -/
@[irreducible] def linkedNode (nonce : Byte) : PeerNetwork :=
  (PeerNetwork.start regtestConfig (List.Vector.replicate 16 nonce)).run reference
    [.connect (some ⟨[127, 0, 0, 1], rfl⟩) 7000, .connected 0 (some none), .accepted (some none)]

/-- Two of them, connected to each other. -/
def linkedPair : Pair := ⟨fun e => linkedNode (if e = .first then 1 else 2)⟩

def linkedSession (e : End) (link : Link) : Nat := if e.opened = link then 1 else 2

/-- The tips that the two connections advertise. -/
def linkedTip (link : Link) : UInt64 × Hash256 := (if link = .ofFirst then 0 else 7, .zero)

theorem waiting_of_any {n : PeerNetwork} {id : Nat} {direction : PeerDirection}
    (h : (n.objects id).any (fun s => s.stopped = false ∧ s.direction = direction
      ∧ s.remoteHello.isNone ∧ s.reading = .header ∧ s.readOpen = true) = true) :
    n.Waiting id direction := by
  cases hs : n.objects id with
  | none => rw [hs] at h; cases h
  | some s =>
      rw [hs] at h
      obtain ⟨hopen, hdirection, hnone, hreading, hread⟩ := of_decide_eq_true h
      exact ⟨s, hs, hopen, hdirection, Option.isNone_iff_eq_none.mp hnone, hreading, hread⟩

/-- Where every session waits, none has been greeted. -/
theorem not_greeted_of_waiting {n : PeerNetwork} (hn : n.Inv)
    (h : ∀ id ∈ n.sessions, ∃ direction, n.Waiting id direction) (id : Nat)
    (nonce : FixedBytes 16) : ¬ n.Greeted id nonce := by
  intro hgreeted
  obtain ⟨direction, s, hs, -, -, hnone, -⟩ := h id ((hn.listed id).mpr hgreeted.isOpen)
  obtain ⟨s', hs', -, hnonce⟩ := hgreeted
  rw [hs] at hs'
  cases hs'
  rw [Session.hasNonce, hnone] at hnonce
  cases hnonce

theorem linkedNode_sessions : ∀ e, (linkedPair.node e).sessions = [1, 2] := by
  intro e
  cases e with
  | first => decide +kernel
  | second => decide +kernel

theorem linkedNode_waiting :
    ∀ e link, (linkedPair.node e).Waiting (linkedSession e link) (link.direction e) := by
  intro e link
  refine waiting_of_any ?_
  cases e <;> cases link <;> decide +kernel

theorem linkedNode_reachable (nonce : Byte) : ∃ config sessionNonce events,
    linkedNode nonce = (PeerNetwork.start config sessionNonce).run reference events := by
  unfold linkedNode
  exact ⟨_, _, _, rfl⟩

theorem linkedNode_only (e : End) (id : Nat) (nonce : FixedBytes 16) :
    ¬ (linkedPair.node e).Greeted id nonce := by
  obtain ⟨config, sessionNonce, events, hrun⟩ :=
    linkedNode_reachable (if e = .first then 1 else 2)
  have hinv : (linkedNode (if e = .first then 1 else 2)).Inv := by
    rw [hrun]
    exact inv_run reference config sessionNonce events
  refine not_greeted_of_waiting (n := linkedPair.node e) hinv ?_ id nonce
  intro id hid
  rw [linkedNode_sessions e] at hid
  have hlink : ∃ link, id = linkedSession e link := by
    rcases List.mem_cons.mp hid with rfl | hid
    · exact ⟨e.opened, by cases e <;> rfl⟩
    · rw [List.mem_singleton.mp hid]
      exact ⟨e.opened.opposite, by cases e <;> rfl⟩
  obtain ⟨link, rfl⟩ := hlink
  exact ⟨_, linkedNode_waiting e link⟩

theorem linkedPair_different :
    (linkedPair.node .first).sessionNonce ≠ (linkedPair.node .second).sessionNonce := by
  decide +kernel

theorem linkedPair_connected : linkedPair.Connected reference linkedSession := by
  refine ⟨?_, linkedNode_waiting, ?_, linkedPair_different⟩
  · intro e
    exact linkedNode_reachable (if e = .first then 1 else 2)
  · intro e id
    exact linkedNode_only e id _

/-- The second node hands the target of its own connection over to the first one's. -/
theorem duplicates_resolve_linked :
    let order : List (End × Link) := [(.first, .ofSecond), (.second, .ofFirst),
      (.second, .ofSecond), (.first, .ofFirst)]
    let q := Runs.run (process reference linkedSession fun e link =>
      (linkedPair.node e.other).greetingFrame reference (linkedTip link))
        linkedPair order
    (q.node .first).isOpen 2 = false ∧ (q.node .second).isOpen 1 = false ∧
      (q.node .second).targetOf 2 = some 0 := by
  intro order q
  have hkept : linkedPair.kept = .ofFirst := by decide +kernel
  have h := (duplicates_resolve reference).2 linkedSession linkedPair linkedPair_connected
    (fun _ => linkedTip) order (by decide) q rfl
  have hfirst := (h .first).2.2
  have hsecond := (h .second).2.2
  have hopen := (h .second).2.1
  rw [hkept] at hfirst hsecond hopen
  obtain ⟨hclosed, hattached⟩ := hsecond (by decide) (by decide)
  refine ⟨(hfirst (by decide) (by decide)).1, hclosed, ?_⟩
  refine (hattached 0 (by decide +kernel) (by decide +kernel) (hopen ?_)).1
  exact ⟨by decide +kernel, by decide +kernel, by decide +kernel, by decide +kernel⟩

end Pair

end BBC
