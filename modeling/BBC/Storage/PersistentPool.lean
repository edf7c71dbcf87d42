/-
# `BBC.Storage.PersistentPool` — the table is the pool

A process opens its pool, changes it, may be stopped and opens it again, and every
database transaction on the way may fail.  `PoolDatabase` is the table together with the
pool of the process, if one is open.

After every call the payload column is the pool, in order.  `open` runs the admission
again on every row; the pool was filled by admission, so it is its own replay and comes
back unchanged.
-/
import BBC.Chain.BlockCodec
import BBC.Mempool.Admission
import BBC.Mempool.Selection
import BBC.Storage.MempoolStore

namespace BBC

variable {κ : Crypto}

/-! ## What the pool holds has been verified -/

namespace Mempool

theorem verified_add {m : Mempool} (h : ∀ t ∈ m.transactions, t.Verified κ)
    {value : SignedTransaction} (hvalue : value.Verified κ) :
    ∀ t ∈ (m.add κ value).1.transactions, t.Verified κ := by
  intro t ht
  have haddAll : (m.add κ value).1 = m.addAll κ [value] := rfl
  rw [haddAll] at ht
  rcases Mempool.mem_of_mem_addAll [value] ht with ht | ht
  · exact h t ht
  · rw [List.mem_singleton.mp ht]
    exact hvalue

end Mempool

namespace MempoolStore

/-- A reconciled pool holds what was detached and what was pending. -/
theorem verified_reconcileReorganization {s : MempoolStore} {detached : List Block}
    (hpool : ∀ t ∈ s.mempool.transactions, t.Verified κ)
    (hdetached : ∀ b ∈ detached, b.WellFormed κ) (state : ChainState) (databaseOk : Bool) :
    ∀ t ∈ (s.reconcileReorganization κ state detached databaseOk).1.mempool.transactions,
      t.Verified κ := by
  intro t ht
  rw [reconcileReorganization] at ht
  split at ht
  · exact hpool t ht
  rw [addEach_addEach, reconciled] at ht
  rcases Mempool.mem_of_mem_addAll _ ht with ht | ht
  · exact absurd ht List.not_mem_nil
  rcases List.mem_append.mp ht with ht | ht
  · obtain ⟨b, hb, htb⟩ := List.mem_flatMap.mp ht
    exact (hdetached b hb).verified t htb
  · exact hpool t ht

theorem verified_loadRows (rows : List MempoolRow) :
    ∀ {m : Mempool}, (∀ t ∈ m.transactions, t.Verified κ) →
      ∀ t ∈ (rows.foldl (loadRow κ) m).transactions, t.Verified κ := by
  induction rows with
  | nil => intro m h; exact h
  | cons row rows ih =>
      intro m h
      refine ih ?_
      unfold loadRow
      split
      · exact h
      split
      · exact h
      rename_i value hdecoded
      exact Mempool.verified_add h (SignedTransaction.serialize_of_deserialize κ hdecoded).2

/-! ## The table and the pool -/

/-- The table is the pool, and the pool is its own replay. -/
structure Faithful (κ : Crypto) (s : MempoolStore) : Prop where
  inv : s.mempool.Inv κ
  replays : s.mempool.Replays κ
  verified : ∀ t ∈ s.mempool.transactions, t.Verified κ
  rows : s.rows = rowsOf κ s.mempool

/-- A rewrite that is committed leaves the rows of the pool. -/
theorem rows_of_rewrite {m : Mempool} (h : m.Inv κ) {databaseOk : Bool} {rows : List MempoolRow}
    (hrewrite : rewrite κ databaseOk m = some rows) : rows = rowsOf κ m := by
  cases databaseOk with
  | false => cases hrewrite
  | true => exact Option.some.inj (hrewrite.symm.trans (rewrite_of_inv h))

theorem replays_loadRows (rows : List MempoolRow) :
    ∀ {m : Mempool}, m.Replays κ → (rows.foldl (loadRow κ) m).Replays κ := by
  induction rows with
  | nil => intro m h; exact h
  | cons row rows ih =>
      intro m h
      refine ih ?_
      unfold loadRow
      split
      · exact h
      split
      · exact h
      · exact h.add _

theorem faithful_openStore {io : MempoolOpenIo} {rows : List MempoolRow} {state : ChainState}
    {s : MempoolStore} (h : openStore κ io rows state = .ok s) : s.Faithful κ := by
  obtain ⟨hinv, -⟩ := inv_openStore h
  rw [openStore] at h
  split_ifs at h
  dsimp only at h
  split at h
  · cases h
  · rename_i hrewrite
    cases h
    exact ⟨hinv, replays_loadRows rows (Mempool.Replays.new state),
      verified_loadRows rows fun t ht => absurd ht List.not_mem_nil, rows_of_rewrite hinv hrewrite⟩

/-- The row of an admitted transaction comes last. -/
theorem rows_of_appendTransaction {m : Mempool} {t : SignedTransaction} {databaseOk : Bool}
    {rows : List MempoolRow}
    (h : appendTransaction κ databaseOk (rowsOf κ m) t = some rows) :
    rows = rowsOf κ { m with transactions := m.transactions ++ [t] } := by
  cases databaseOk with
  | false => cases h
  | true =>
      rw [appendTransaction, if_pos rfl, insertTransaction] at h
      split at h
      · cases h
      · cases h
        rw [rowsOf, rowsOf, List.map_append]
        rfl

/-- `add` writes what it admits, or changes nothing. -/
theorem Faithful.add {s : MempoolStore} (h : s.Faithful κ) {t : SignedTransaction}
    (ht : t.Verified κ) (databaseOk : Bool) :
    (s.add κ t databaseOk).1.Faithful κ ∧
      ((s.add κ t databaseOk).2.hasValue = false → (s.add κ t databaseOk).1 = s) := by
  rw [MempoolStore.add]
  rcases Mempool.add_cases κ s.mempool t with ⟨-, herror⟩ | ⟨-, hnone, hnext⟩
  · rw [if_pos herror]
    exact ⟨h, fun _ => rfl⟩
  · rw [if_neg (not_not.mpr hnone)]
    cases happend : appendTransaction κ databaseOk s.rows t with
    | none => exact ⟨h, fun _ => rfl⟩
    | some rows =>
        refine ⟨⟨h.inv.add t, h.replays.add t, Mempool.verified_add h.verified ht, ?_⟩, ?_⟩
        · rw [h.rows] at happend
          rw [hnext]
          exact rows_of_appendTransaction happend
        · intro hfailed
          cases hfailed

/-- The two calls that write the whole table. -/
theorem faithful_rewrite {m : Mempool} (hinv : m.Inv κ) (hreplays : m.Replays κ)
    (hverified : ∀ t ∈ m.transactions, t.Verified κ) {databaseOk : Bool} {rows : List MempoolRow}
    (h : rewrite κ databaseOk m = some rows) : Faithful κ ⟨m, rows⟩ :=
  ⟨hinv, hreplays, hverified, rows_of_rewrite hinv h⟩

theorem Faithful.revalidate {s : MempoolStore} (h : s.Faithful κ) (state : ChainState)
    (databaseOk : Bool) :
    (s.revalidate κ state databaseOk).1.Faithful κ ∧
      ((s.revalidate κ state databaseOk).2.error ≠ .none →
        (s.revalidate κ state databaseOk).1 = s) := by
  rw [MempoolStore.revalidate]
  cases hrewrite : rewrite κ databaseOk (s.mempool.revalidate κ state).1 with
  | none => exact ⟨h, fun _ => rfl⟩
  | some rows =>
      refine ⟨faithful_rewrite (Mempool.inv_revalidate s.mempool state)
        ((Mempool.Replays.new state).addAll s.mempool.transactions) ?_ hrewrite,
        fun hfailed => absurd rfl hfailed⟩
      intro t ht
      rcases Mempool.mem_of_mem_addAll s.mempool.transactions ht with ht | ht
      · exact absurd ht List.not_mem_nil
      · exact h.verified t ht

theorem Faithful.reconcileReorganization {s : MempoolStore} (h : s.Faithful κ)
    {detached : List Block} (hdetached : ∀ b ∈ detached, b.WellFormed κ) (state : ChainState)
    (databaseOk : Bool) :
    (s.reconcileReorganization κ state detached databaseOk).1.Faithful κ ∧
      ((s.reconcileReorganization κ state detached databaseOk).2.hasValue = false →
        (s.reconcileReorganization κ state detached databaseOk).1 = s) := by
  have hverified := verified_reconcileReorganization h.verified hdetached state databaseOk
  have hinv := (inv_reconciled κ s state detached).1
  have hreplays : (s.reconciled κ state detached).Replays κ :=
    (Mempool.Replays.new state).addAll _
  rw [MempoolStore.reconcileReorganization] at hverified ⊢
  rw [addEach_addEach] at hverified ⊢
  cases hrewrite : rewrite κ databaseOk (s.reconciled κ state detached) with
  | none => exact ⟨h, fun _ => rfl⟩
  | some rows =>
      rw [hrewrite] at hverified
      exact ⟨faithful_rewrite hinv hreplays hverified hrewrite, fun hfailed => by cases hfailed⟩

/-! ## Opening again -/

/-- The rows of a pool load as its transactions. -/
theorem loadRows_rowsOf (ts : List SignedTransaction) :
    ∀ {m : Mempool}, (∀ t ∈ ts, t.Verified κ) →
      (ts.map fun t => ((t.id κ).toList, t.serialize)).foldl (loadRow κ) m = m.addAll κ ts := by
  induction ts with
  | nil => intro m _; rfl
  | cons t ts ih =>
      intro m h
      obtain ⟨ht, hts⟩ := List.forall_mem_cons.mp h
      have hne : t.serialize ≠ [] := by
        intro hnil
        have hlength := t.length_serialize
        rw [hnil] at hlength
        cases hlength
      have hload : loadRow κ m ((t.id κ).toList, t.serialize) = (m.add κ t).1 := by
        rw [loadRow, if_neg hne, t.deserialize_serialize κ ht]
      rw [List.map_cons, List.foldl_cons, hload, ih hts]
      rfl

theorem Faithful.loadRows {s : MempoolStore} (h : s.Faithful κ) :
    s.rows.foldl (loadRow κ) ⟨s.mempool.chainState, []⟩ = s.mempool := by
  rw [h.rows, rowsOf, loadRows_rowsOf _ h.verified]
  exact h.replays

/-- Opening the table again on the same state gives the same store. -/
theorem Faithful.reopen {s : MempoolStore} (h : s.Faithful κ) :
    openStore κ {} s.rows s.mempool.chainState = .ok s ∧
      ∀ io s', openStore κ io s.rows s.mempool.chainState = .ok s' → s' = s := by
  have hstore : s = ⟨s.mempool, rowsOf κ s.mempool⟩ := by
    rw [← h.rows]
  constructor
  · rw [openStore, if_neg (by simp), if_neg (by simp)]
    dsimp only
    rw [h.loadRows, rewrite_of_inv h.inv]
    exact congrArg Except.ok hstore.symm
  · intro io s' hopen
    rw [openStore] at hopen
    split_ifs at hopen
    dsimp only at hopen
    rw [h.loadRows] at hopen
    split at hopen
    · cases hopen
    · rename_i hrewrite
      cases hopen
      rw [rows_of_rewrite h.inv hrewrite]
      exact hstore.symm

end MempoolStore

/-! ## Runs -/

/-- The table, and the pool of the process that has it open. -/
structure PoolDatabase where
  rows : List MempoolRow
  pool : Option Mempool := none

/-- A call; what the outside world does to it is part of it. -/
inductive PoolCall where
  | openStore (io : MempoolOpenIo) (chainState : ChainState)
  | add (transaction : SignedTransaction) (databaseOk : Bool)
  | revalidate (chainState : ChainState) (databaseOk : Bool)
  | reconcileReorganization (chainState : ChainState) (detachedBlocks : List Block)
      (databaseOk : Bool)

/-- The transactions and blocks of the call are ones that the program can have. -/
def PoolCall.Genuine (κ : Crypto) : PoolCall → Prop
  | .add transaction _ => transaction.Obtainable κ
  | .reconcileReorganization _ detachedBlocks _ => ∀ b ∈ detachedBlocks, b.Obtainable κ
  | _ => True

namespace PoolDatabase

/-- The table and the pool of a store. -/
def ofStore (s : MempoolStore) : PoolDatabase := ⟨s.rows, some s.mempool⟩

/-- One call, and whether it succeeded.  Without an open pool there is only `open`. -/
def step (κ : Crypto) (d : PoolDatabase) : PoolCall → PoolDatabase × Bool
  | .openStore io chainState =>
      match MempoolStore.openStore κ io d.rows chainState with
      | .error _ => (d, false)
      | .ok s => (ofStore s, true)
  | .add transaction databaseOk =>
      match d.pool with
      | none => (d, false)
      | some pool =>
          let r := MempoolStore.add κ ⟨pool, d.rows⟩ transaction databaseOk
          (ofStore r.1, r.2.hasValue)
  | .revalidate chainState databaseOk =>
      match d.pool with
      | none => (d, false)
      | some pool =>
          let r := MempoolStore.revalidate κ ⟨pool, d.rows⟩ chainState databaseOk
          (ofStore r.1, r.2.error = .none)
  | .reconcileReorganization chainState detachedBlocks databaseOk =>
      match d.pool with
      | none => (d, false)
      | some pool =>
          let r := MempoolStore.reconcileReorganization κ ⟨pool, d.rows⟩ chainState detachedBlocks
            databaseOk
          (ofStore r.1, r.2.hasValue)

/-- A run of calls. -/
def run (κ : Crypto) (d : PoolDatabase) (calls : List PoolCall) : PoolDatabase :=
  calls.foldl (fun d call => (d.step κ call).1) d

/-- An open pool has its table. -/
def Faithful (κ : Crypto) (d : PoolDatabase) : Prop :=
  ∀ pool, d.pool = some pool → MempoolStore.Faithful κ ⟨pool, d.rows⟩

theorem faithful_ofStore {s : MempoolStore} (h : s.Faithful κ) : (ofStore s).Faithful κ := by
  intro pool hpool
  cases hpool
  exact h

/-- The step lemma: a call keeps table and pool together, and a failed one changes
nothing. -/
theorem Faithful.step {d : PoolDatabase} (h : d.Faithful κ) (hlaw : κ.SignatureLaw)
    {call : PoolCall} (hcall : call.Genuine κ) :
    (d.step κ call).1.Faithful κ ∧ ((d.step κ call).2 = false → (d.step κ call).1 = d) := by
  have hsame : ∀ {pool : Mempool}, d.pool = some pool → ofStore ⟨pool, d.rows⟩ = d := by
    intro pool hpool
    cases d
    cases hpool
    rfl
  cases call with
  | openStore io state =>
      rw [PoolDatabase.step]
      cases hopen : MempoolStore.openStore κ io d.rows state with
      | error e => exact ⟨h, fun _ => rfl⟩
      | ok s =>
          exact ⟨faithful_ofStore (MempoolStore.faithful_openStore hopen),
            fun hfailed => by cases hfailed⟩
  | add t databaseOk =>
      rw [PoolDatabase.step]
      cases hpool : d.pool with
      | none => exact ⟨h, fun _ => rfl⟩
      | some pool =>
          obtain ⟨hnext, hfailed⟩ := (h pool hpool).add (hcall.verified κ hlaw) databaseOk
          refine ⟨faithful_ofStore hnext, fun hfalse => ?_⟩
          exact (congrArg ofStore (hfailed hfalse)).trans (hsame hpool)
  | revalidate state databaseOk =>
      rw [PoolDatabase.step]
      cases hpool : d.pool with
      | none => exact ⟨h, fun _ => rfl⟩
      | some pool =>
          obtain ⟨hnext, hfailed⟩ := (h pool hpool).revalidate state databaseOk
          refine ⟨faithful_ofStore hnext, fun hfalse => ?_⟩
          exact (congrArg ofStore (hfailed (of_decide_eq_false hfalse))).trans (hsame hpool)
  | reconcileReorganization state detached databaseOk =>
      rw [PoolDatabase.step]
      cases hpool : d.pool with
      | none => exact ⟨h, fun _ => rfl⟩
      | some pool =>
          obtain ⟨hnext, hfailed⟩ := (h pool hpool).reconcileReorganization
            (fun b hb => (hcall b hb).wellFormed hlaw) state databaseOk
          refine ⟨faithful_ofStore hnext, fun hfalse => ?_⟩
          exact (congrArg ofStore (hfailed hfalse)).trans (hsame hpool)

theorem faithful_run (hlaw : κ.SignatureLaw) (calls : List PoolCall) :
    ∀ {d : PoolDatabase}, (∀ call ∈ calls, call.Genuine κ) → d.Faithful κ →
      (d.run κ calls).Faithful κ := by
  induction calls with
  | nil => intro d _ h; exact h
  | cons call calls ih =>
      intro d hcalls h
      obtain ⟨hcall, hrest⟩ := List.forall_mem_cons.mp hcalls
      exact ih hrest (h.step hlaw hcall).1

/-- Whatever calls a process has made on a database with any rows and whichever of their
transactions failed: an open pool has its serialized transactions as the payload column,
in order, opening the database again on the pool's state gives the same pool and table,
and a call that fails changes neither. -/
theorem table_is_pool (κ : Crypto) (hlaw : κ.SignatureLaw) (rows : List MempoolRow)
    (calls : List PoolCall) (hcalls : ∀ call ∈ calls, call.Genuine κ) :
    let d := run κ ⟨rows, none⟩ calls
    (∀ pool, d.pool = some pool →
      d.rows.map Prod.snd = pool.transactions.map SignedTransaction.serialize ∧
      MempoolStore.openStore κ {} d.rows pool.chainState = .ok ⟨pool, d.rows⟩ ∧
      ∀ io s, MempoolStore.openStore κ io d.rows pool.chainState = .ok s →
        s.mempool.transactions = pool.transactions ∧ s.rows = d.rows) ∧
    ∀ call : PoolCall, call.Genuine κ → (d.step κ call).2 = false → (d.step κ call).1 = d := by
  intro d
  have hstart : Faithful κ ⟨rows, none⟩ := by
    intro pool hpool
    cases hpool
  have hd : d.Faithful κ := faithful_run hlaw calls hcalls hstart
  constructor
  · intro pool hpool
    have hstore := hd pool hpool
    obtain ⟨hopen, honly⟩ := hstore.reopen
    refine ⟨?_, hopen, ?_⟩
    · have hrows : d.rows = MempoolStore.rowsOf κ pool := hstore.rows
      rw [hrows, MempoolStore.rowsOf, List.map_map]
      rfl
    · intro io s hs
      rw [honly io s hs]
      exact ⟨rfl, rfl⟩
  · intro call hcall
    exact (hd.step hlaw hcall).2

theorem obtainable_minerPayment : minerPayment.Obtainable reference := by
  have hverified : minerPayment.Verified reference := by
    unfold SignedTransaction.Verified
    decide +kernel
  exact .deserialized (minerPayment.deserialize_serialize reference hverified)

/-- A database that is opened, written once and refused once. -/
def writtenCalls : List PoolCall :=
  [.openStore {} (Blockchain.replay reference 2 [minedFirst]).state, .add minerPayment false,
    .add minerPayment true]

theorem genuine_writtenCalls : ∀ call ∈ writtenCalls, call.Genuine reference :=
  List.forall_mem_cons.mpr ⟨trivial, List.forall_mem_cons.mpr ⟨obtainable_minerPayment,
    List.forall_mem_cons.mpr ⟨obtainable_minerPayment, fun _ h => absurd h List.not_mem_nil⟩⟩⟩

theorem table_is_pool_written :
    let d := run reference ⟨[], none⟩ writtenCalls
    d.pool.map Mempool.transactions = some [minerPayment] ∧
    (∀ pool, d.pool = some pool →
      d.rows.map Prod.snd = pool.transactions.map SignedTransaction.serialize ∧
      MempoolStore.openStore reference {} d.rows pool.chainState = .ok ⟨pool, d.rows⟩ ∧
      ∀ io s, MempoolStore.openStore reference io d.rows pool.chainState = .ok s →
        s.mempool.transactions = pool.transactions ∧ s.rows = d.rows) ∧
    ∀ call : PoolCall, call.Genuine reference → (d.step reference call).2 = false →
      (d.step reference call).1 = d :=
  ⟨by decide +kernel,
    table_is_pool reference reference_signatureLaw [] writtenCalls genuine_writtenCalls⟩

end PoolDatabase

end BBC
