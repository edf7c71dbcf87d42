/-
# `BBC.Node.Relaying` — who is still to broadcast a transaction

A transaction is broadcast some sections after the one that admits it.  In between its handler
is one of three (`Relaying`); every other handler, and every rest of one, broadcasts only what
it admits itself (`settles_call`).
-/
import BBC.Node.Aloof

namespace BBC

open Sections (Program Move System)

variable {κ : Crypto} {id : Hash256}

namespace NodeRuntime

/-- The handler has admitted the transaction and is still to broadcast it. -/
inductive Relaying (κ : Crypto) (id : Hash256) : Task → Prop
  /-- It has come from a peer, -/
  | received {peerId : UInt64} {payload : Bytes} {submission : Bool} {value : Hash256}
      {added : MempoolStoreAddResult} :
      added.hasValue = true → isTransaction κ id (.transaction, payload) = true →
        Relaying κ id (finishTransaction peerId payload submission value added)
  /-- or it was submitted here, and is still to be noted, -/
  | admitted {t : SignedTransaction} : isTransaction κ id (.transaction, t.serialize) = true →
      Relaying κ id (announceSubmission κ t)
  /-- or has been noted. -/
  | noted {t : SignedTransaction} : isTransaction κ id (.transaction, t.serialize) = true →
      Relaying κ id (broadcastSubmission t)

theorem not_relaying_done : ¬ Relaying κ id .done := by
  intro h
  generalize hp : (.done : Task) = p at h
  cases h with
  | received hvalue hitem => cases hp
  | admitted hitem => cases hp
  | noted hitem => cases hp

/-- The rest of a handler gets along with `held` relays, while the active chain stays. -/
abbrev Owes (κ : Crypto) (id : Hash256) (p : Task) (held : Nat) : Prop :=
  Earned.Affords (Grown κ) (fun n m => m.activeChain = n.activeChain) (holdsTransaction κ id)
    (isTransaction κ id) p held

/-- The rest of a handler broadcasts only what it admits, or has admitted the transaction. -/
def Broadcasts (κ : Crypto) (id : Hash256) (p : Task) : Prop := Owes κ id p 0 ∨ Relaying κ id p

/-- A handler settles all the way. -/
abbrev StaysEarned (κ : Crypto) (id : Hash256) (p : Task) : Prop :=
  p.Throughout (fun _ => True) (Broadcasts κ id)

theorem broadcasts_done : Broadcasts κ id .done := Or.inl (Program.spends_done 0)

/-- Who has admitted it has one relay left. -/
theorem Relaying.owes {p : Task} (h : Relaying κ id p) : Owes κ id p 1 := by
  have hearned := earned_transaction (κ := κ) id
  cases h with
  | received hvalue hitem =>
      refine (hearned.affords_finishTransaction _ _ _ _ _).mono ?_
      exact Bool.toNat_le _
  | admitted hitem => exact (hearned.affords_announceSubmission _).mono (Bool.toNat_le _)
  | noted hitem => exact (Earned.affords_broadcastSubmission _).mono (Bool.toNat_le _)

/-! ## Handlers that admit nothing -/

/-- While the active chain stays, such a section relays no transaction. -/
theorem Aloof.relays_none {n n' : NodeRuntime} {os : List Output} (h : Aloof κ n n' os)
    (hn : n.Grown κ) (hsteady : n'.activeChain = n.activeChain) :
    relays (isTransaction κ id) os = 0 ∧
      (holdsTransaction κ id n).toNat ≤ (holdsTransaction κ id n').toNat := by
  rcases h.source with ⟨-, hpool, hunrelated⟩ | ⟨block, io, rfl, rfl⟩
  · refine ⟨List.countP_eq_zero.mpr fun o ho hitem => (hunrelated o ho).1 ?_, ?_⟩
    · rw [isTransaction, Bool.and_eq_true, decide_eq_true_eq] at hitem
      exact hitem.1
    · rw [holdsTransaction, holdsTransaction, hpool]
  · obtain ⟨hsilent, hpool⟩ := idle_appendSection hn block io hsteady
    rw [hsilent, holdsTransaction, holdsTransaction, hpool]
    exact ⟨rfl, le_refl _⟩

theorem owes_of_aloof {p : Task} (h : p.All (Aloof κ)) : Owes κ id p 0 := by
  induction p with
  | done => exact Program.spends_done 0
  | step act next ih =>
      exact Program.spends_step (fun n io hn hsteady => (h.1 n io).relays_none hn hsteady)
        fun a => ih a (h.2 a)

theorem staysEarned_of_aloof {p : Task} (h : p.All (Aloof κ)) : StaysEarned κ id p :=
  h.throughout (fun _ _ _ _ _ => trivial) fun _ hq => Or.inl (owes_of_aloof hq)

/-! ## The handlers of transactions -/

theorem staysEarned_last {act : NodeRuntime → StorageIo → NodeRuntime × List Output}
    (h : Broadcasts κ id (.last act)) : StaysEarned κ id (.last act) :=
  Program.throughout_last h broadcasts_done fun _ _ _ => trivial

theorem staysEarned_finishTransaction (peerId : UInt64) (payload : Bytes) (submission : Bool)
    (value : Hash256) (added : MempoolStoreAddResult) :
    StaysEarned κ id (finishTransaction peerId payload submission value added) := by
  refine staysEarned_last ?_
  by_cases hrelays : added.hasValue = true ∧ isTransaction κ id (.transaction, payload) = true
  · exact Or.inr (.received hrelays.1 hrelays.2)
  · have hnone : (added.hasValue && isTransaction κ id (.transaction, payload)) = false :=
      Bool.eq_false_iff.mpr (mt Bool.and_eq_true_iff.mp hrelays)
    have howes := (earned_transaction (κ := κ) id).affords_finishTransaction peerId payload
      submission value added
    rw [hnone] at howes
    exact Or.inl howes

theorem staysEarned_handleTransaction (peerId : UInt64) (payload : Bytes) (submission : Bool) :
    StaysEarned κ id (handleTransaction κ peerId payload submission) := by
  have hearned := earned_transaction (κ := κ) id
  have hrefuses := fun id reason =>
    staysEarned_last (Or.inl (hearned.affords_refusal peerId submission id reason))
  refine ⟨Or.inl (hearned.affords_handleTransaction peerId payload submission), fun n _ _ =>
    ⟨trivial, ?_⟩⟩
  dsimp only
  split
  · exact broadcasts_done
  split
  · exact hrefuses _ _
  rename_i value hdecoded
  split
  · exact hrefuses _ _
  have hpayload := (SignedTransaction.serialize_of_deserialize κ hdecoded).1.symm
  refine ⟨Or.inl (hearned.affords_admitTransaction hpayload), fun m io _ => ⟨trivial, ?_⟩⟩
  dsimp only
  split
  · exact broadcasts_done
  · exact staysEarned_finishTransaction ..

theorem staysEarned_sendSubmission (t : SignedTransaction) (peerId : UInt64) :
    StaysEarned κ id (sendSubmission t peerId) := by
  have hearned := earned_transaction (κ := κ) id
  refine ⟨Or.inl (hearned.affords_sendSubmission t peerId 0), fun n _ _ => ⟨trivial, ?_⟩⟩
  dsimp only
  split
  · exact broadcasts_done
  · exact staysEarned_last (Or.inl (hearned.last (fun _ _ => ⟨rfl, rfl, rfl, rfl, rfl⟩)
      fun _ _ => Earned.reply_nil))

theorem staysEarned_submitToFullNode (t : SignedTransaction) (fullNode : Option PeerStatus) :
    StaysEarned κ id (submitToFullNode κ t fullNode) := by
  have howes := (earned_transaction (κ := κ) id).affords_submitToFullNode t fullNode 0
  cases fullNode with
  | none => exact broadcasts_done
  | some fullNode =>
      refine ⟨Or.inl howes, fun n _ _ => ⟨trivial, ?_⟩⟩
      dsimp only
      split
      · exact staysEarned_sendSubmission t _
      · exact broadcasts_done

theorem staysEarned_announceSubmission (t : SignedTransaction) :
    StaysEarned κ id (announceSubmission κ t) := by
  have hannounced := (earned_transaction (κ := κ) id).affords_announceSubmission t
  have hbroadcast : Owes κ id (broadcastSubmission t)
      (isTransaction κ id (.transaction, t.serialize)).toNat :=
    Earned.affords_broadcastSubmission t
  cases hitem : isTransaction κ id (.transaction, t.serialize) with
  | true =>
      have hrest := staysEarned_last (Or.inr (.noted hitem))
      exact ⟨Or.inr (.admitted hitem), fun n _ _ => ⟨trivial, hrest⟩⟩
  | false =>
      rw [hitem] at hannounced hbroadcast
      have hrest := staysEarned_last (Or.inl hbroadcast)
      exact ⟨Or.inl hannounced, fun n _ _ => ⟨trivial, hrest⟩⟩

theorem staysEarned_submitSignedTransaction (t : SignedTransaction) :
    StaysEarned κ id (submitSignedTransaction κ t) := by
  have hearned := earned_transaction (κ := κ) id
  refine ⟨Or.inl (hearned.affords_submitSignedTransaction t), fun n _ _ => ⟨trivial, ?_⟩⟩
  dsimp only
  split
  · exact broadcasts_done
  refine ⟨Or.inl (hearned.affords_admitSubmission t _), fun m io _ => ⟨trivial, ?_⟩⟩
  dsimp only
  split
  · split
    · exact broadcasts_done
    · exact staysEarned_announceSubmission t
  · exact staysEarned_submitToFullNode t _

/-- Every handler and every rest of one broadcasts only what it has admitted. -/
theorem staysEarned_call (call : Call) : StaysEarned κ id (call.task κ) := by
  cases call with
  | block peerId payload => exact staysEarned_of_aloof (all_handleBlock peerId payload false)
  | blockSubmit peerId payload => exact staysEarned_of_aloof (all_handleBlock peerId payload true)
  | blocks peerId payload => exact staysEarned_of_aloof (all_handleBlocks peerId payload)
  | getBlocks peerId payload => exact staysEarned_of_aloof (all_handleGetBlocks peerId payload)
  | transaction peerId payload => exact staysEarned_handleTransaction peerId payload false
  | transactionSubmit peerId payload => exact staysEarned_handleTransaction peerId payload true
  | handshake peerId => exact staysEarned_of_aloof (all_maybeStartSync peerId)
  | submit t => exact staysEarned_submitSignedTransaction t
  | mined block => exact staysEarned_of_aloof (all_foundLocally block)
  | peers snapshot =>
      exact staysEarned_last
        (Or.inl ((earned_transaction (κ := κ) id).affords_call (.peers snapshot)))

end NodeRuntime

end BBC
