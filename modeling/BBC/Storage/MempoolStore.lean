/-
# `BBC.Storage.MempoolStore` — the pending pool and its table

`src/storage/mempool_store.cpp`.  Every operation computes the next pool in memory,
writes the table `transactions` in one SQLite transaction, and only then replaces
the pool.  A `MempoolStore` value stands for the object together with the rows of
that table, in `arrival_order`.

Whether SQLite commits is an input.  The one failure that the code itself can
cause is the `UNIQUE` constraint on the id column, so that one is computed; the
pool's ids are distinct, and a rewrite that SQLite commits therefore succeeds
(`rewrite_of_inv`).
-/
import BBC.Mempool.Basic
import BBC.Chain.Block

namespace BBC

/-- `storage::MempoolStoreError`. -/
inductive MempoolStoreError where
  | none
  | ioError
  | databaseError
  deriving DecidableEq, Repr

/-- A row of `transactions`: the id and the payload. -/
abbrev MempoolRow := Bytes × Bytes

/-- `storage::MempoolStore`, with the rows of `database_path()`. -/
structure MempoolStore where
  mempool : Mempool
  rows : List MempoolRow

/-- `storage::MempoolStoreAddResult`. -/
structure MempoolStoreAddResult where
  storageError : MempoolStoreError := .none
  mempoolError : MempoolError := .none
  deriving DecidableEq

/-- `MempoolStoreAddResult::has_value`. -/
def MempoolStoreAddResult.hasValue (r : MempoolStoreAddResult) : Bool :=
  r.storageError == .none && r.mempoolError == .none

/-- `storage::MempoolStoreRevalidationResult`. -/
structure MempoolStoreRevalidationResult where
  error : MempoolStoreError := .none
  removed : Nat := 0

/-- `storage::MempoolStoreReorganizationResult`. -/
structure MempoolStoreReorganizationResult where
  error : MempoolStoreError := .none
  removed : Nat := 0
  detached : Nat := 0
  restored : Nat := 0
  transactionsToRelay : List SignedTransaction := []

/-- `MempoolStoreReorganizationResult::has_value`. -/
def MempoolStoreReorganizationResult.hasValue (r : MempoolStoreReorganizationResult) : Bool :=
  r.error == .none

/-- What the outside world does to one `MempoolStore::open`. -/
structure MempoolOpenIo where
  directoryOk : Bool := true
  /-- The database opens, has its schema and is read to the end. -/
  readOk : Bool := true
  rewriteOk : Bool := true

namespace MempoolStore

variable (κ : Crypto)

/-- `insert_transaction`: refused by the `UNIQUE` constraint. -/
def insertTransaction (rows : List MempoolRow) (value : SignedTransaction) :
    Option (List MempoolRow) :=
  if (value.id κ).toList ∈ rows.map Prod.fst then none
  else some (rows ++ [((value.id κ).toList, value.serialize)])

/-- `rewrite`: all rows are deleted and the pool is inserted, or nothing happens. -/
def rewrite (databaseOk : Bool) (value : Mempool) : Option (List MempoolRow) :=
  if databaseOk then value.transactions.foldlM (insertTransaction κ) [] else none

/-- `append_transaction`. -/
def appendTransaction (databaseOk : Bool) (rows : List MempoolRow) (value : SignedTransaction) :
    Option (List MempoolRow) :=
  if databaseOk then insertTransaction κ rows value else none

/-- One row of the loading loop of `open`; a null payload is an empty one. -/
def loadRow (m : Mempool) (row : MempoolRow) : Mempool :=
  if row.2 = [] then m
  else
    match deserializeTransaction κ row.2 with
    | .error _ => m
    | .ok value => (m.add κ value).1

/-- `MempoolStore::open`. -/
def openStore (io : MempoolOpenIo) (rows : List MempoolRow) (chainState : ChainState) :
    Except MempoolStoreError MempoolStore :=
  if ¬ io.directoryOk then .error .ioError
  else if ¬ io.readOk then .error .databaseError
  else
    let loaded := rows.foldl (loadRow κ) ⟨chainState, []⟩
    match rewrite κ io.rewriteOk loaded with
    | none => .error .databaseError
    | some rows => .ok ⟨loaded, rows⟩

/-- `MempoolStore::add`. -/
def add (s : MempoolStore) (transaction : SignedTransaction) (databaseOk : Bool) :
    MempoolStore × MempoolStoreAddResult :=
  let next := s.mempool.add κ transaction
  if next.2 ≠ .none then (s, { mempoolError := next.2 })
  else
    match appendTransaction κ databaseOk s.rows transaction with
    | none => (s, { storageError := .databaseError })
    | some rows => (⟨next.1, rows⟩, {})

/-- `MempoolStore::revalidate`. -/
def revalidate (s : MempoolStore) (chainState : ChainState) (databaseOk : Bool) :
    MempoolStore × MempoolStoreRevalidationResult :=
  let next := s.mempool.revalidate κ chainState
  match rewrite κ databaseOk next.1 with
  | none => (s, { error := .databaseError })
  | some rows => (⟨next.1, rows⟩, { removed := next.2 })

/-- A loop of `reconcile_reorganization`: the pool after adding, and what it took. -/
def addEach (m : Mempool) : List SignedTransaction → Mempool × List SignedTransaction
  | [] => (m, [])
  | transaction :: rest =>
      let added := m.add κ transaction
      let after := addEach added.1 rest
      (after.1, if added.2 = .none then transaction :: after.2 else after.2)

/-- `MempoolStore::reconcile_reorganization`: first the detached transactions in
chain order, then the pending ones. -/
def reconcileReorganization (s : MempoolStore) (chainState : ChainState)
    (detachedBlocks : List Block) (databaseOk : Bool) :
    MempoolStore × MempoolStoreReorganizationResult :=
  let detached := detachedBlocks.flatMap Block.transactions
  let restored := addEach κ ⟨chainState, []⟩ detached
  let retained := addEach κ restored.1 s.mempool.transactions
  match rewrite κ databaseOk retained.1 with
  | none => (s, { error := .databaseError })
  | some rows =>
      (⟨retained.1, rows⟩,
        { removed := s.mempool.transactions.length - retained.2.length
          detached := detached.length
          restored := restored.2.length
          transactionsToRelay := restored.2 })

variable {κ : Crypto}

/-! ## The table takes a pool with distinct ids -/

/-- Inserting transactions whose ids are new and distinct adds their rows in order. -/
theorem foldlM_insertTransaction (ts : List SignedTransaction) :
    ∀ rows : List MempoolRow, (ts.map (SignedTransaction.id κ)).Nodup →
      (∀ t ∈ ts, (t.id κ).toList ∉ rows.map Prod.fst) →
      ts.foldlM (insertTransaction κ) rows
        = some (rows ++ ts.map fun t => ((t.id κ).toList, t.serialize)) := by
  induction ts with
  | nil =>
      intro rows _ _
      rw [List.map_nil, List.append_nil]
      rfl
  | cons t ts ih =>
      intro rows hnodup hfresh
      rw [List.map_cons, List.nodup_cons] at hnodup
      obtain ⟨ht, hts⟩ := List.forall_mem_cons.mp hfresh
      rw [List.foldlM_cons, insertTransaction, if_neg ht]
      refine (ih _ hnodup.2 ?_).trans ?_
      · intro u hu hmem
        rw [List.map_append, List.mem_append] at hmem
        rcases hmem with hold | hnew
        · exact hts u hu hold
        · have hid : u.id κ = t.id κ := List.Vector.toList_injective (List.mem_singleton.mp hnew)
          exact hnodup.1 (hid ▸ List.mem_map_of_mem hu)
      · rw [List.append_assoc, List.map_cons]
        rfl

/-- The rows of a pool. -/
def rowsOf (κ : Crypto) (m : Mempool) : List MempoolRow :=
  m.transactions.map fun t => ((t.id κ).toList, t.serialize)

/-- A committed rewrite of a pool that `add` has filled leaves exactly its rows. -/
theorem rewrite_of_inv {m : Mempool} (h : m.Inv κ) : rewrite κ true m = some (rowsOf κ m) :=
  (if_pos rfl).trans (foldlM_insertTransaction m.transactions [] h.ids
    (fun _ _ => List.not_mem_nil))

/-! ## The pool after each operation -/

theorem addEach_fst (ts : List SignedTransaction) :
    ∀ m : Mempool, (addEach κ m ts).1 = m.addAll κ ts := by
  induction ts with
  | nil => intro m; rfl
  | cons t ts ih => intro m; exact ih _

theorem inv_loadRows (rows : List MempoolRow) :
    ∀ {m : Mempool}, m.Inv κ → (rows.foldl (loadRow κ) m).Inv κ ∧
      (rows.foldl (loadRow κ) m).chainState = m.chainState := by
  induction rows with
  | nil => intro m h; exact ⟨h, rfl⟩
  | cons row rows ih =>
      intro m h
      have hrow : (loadRow κ m row).Inv κ ∧ (loadRow κ m row).chainState = m.chainState := by
        unfold loadRow
        split
        · exact ⟨h, rfl⟩
        split
        · exact ⟨h, rfl⟩
        · exact ⟨h.add _, Mempool.chainState_add m _⟩
      obtain ⟨hinv, hstate⟩ := ih hrow.1
      exact ⟨hinv, hstate.trans hrow.2⟩

/-- A store that opens holds a pool on the given state. -/
theorem inv_openStore {io : MempoolOpenIo} {rows : List MempoolRow} {state : ChainState}
    {s : MempoolStore} (h : openStore κ io rows state = .ok s) :
    s.mempool.Inv κ ∧ s.mempool.chainState = state := by
  rw [openStore] at h
  split_ifs at h
  dsimp only at h
  split at h
  · cases h
  · cases h
    exact inv_loadRows rows (Mempool.Inv.new state)

/-- `add` changes the pool as `Mempool::add` does, or not at all. -/
theorem add_cases (κ : Crypto) (s : MempoolStore) (t : SignedTransaction) (databaseOk : Bool) :
    ((s.add κ t databaseOk).1 = s ∧ (s.add κ t databaseOk).2.hasValue = false) ∨
      ((s.add κ t databaseOk).1.mempool = (s.mempool.add κ t).1 ∧
        (s.mempool.add κ t).2 = .none ∧ (s.add κ t databaseOk).2 = {}) := by
  rw [add]
  by_cases hadd : (s.mempool.add κ t).2 = .none
  · rw [if_neg (not_not.mpr hadd)]
    split
    · exact Or.inl ⟨rfl, rfl⟩
    · exact Or.inr ⟨rfl, hadd, rfl⟩
  · rw [if_pos hadd]
    refine Or.inl ⟨rfl, ?_⟩
    rw [MempoolStoreAddResult.hasValue, Bool.and_eq_false_iff]
    exact Or.inr (beq_eq_false_iff_ne.mpr hadd)

/-- The pool that `reconcile_reorganization` computes. -/
def reconciled (κ : Crypto) (s : MempoolStore) (chainState : ChainState)
    (detachedBlocks : List Block) : Mempool :=
  Mempool.addAll κ ⟨chainState, []⟩
    (detachedBlocks.flatMap Block.transactions ++ s.mempool.transactions)

theorem inv_reconciled (κ : Crypto) (s : MempoolStore) (state : ChainState)
    (detached : List Block) :
    (s.reconciled κ state detached).Inv κ ∧
      (s.reconciled κ state detached).chainState = state :=
  ⟨Mempool.Inv.addAll _ (Mempool.Inv.new state), Mempool.chainState_addAll _ _⟩

theorem addEach_addEach (κ : Crypto) (s : MempoolStore) (state : ChainState)
    (detached : List Block) :
    (addEach κ (addEach κ ⟨state, []⟩ (detached.flatMap Block.transactions)).1
      s.mempool.transactions).1 = s.reconciled κ state detached := by
  rw [addEach_fst, addEach_fst, reconciled, Mempool.addAll, Mempool.addAll, Mempool.addAll,
    List.foldl_append]

/-- A committed reconciliation leaves the reconciled pool and its rows. -/
theorem reconcileReorganization_fst (κ : Crypto) (s : MempoolStore) (state : ChainState)
    (detached : List Block) :
    (s.reconcileReorganization κ state detached true).1
      = ⟨s.reconciled κ state detached, rowsOf κ (s.reconciled κ state detached)⟩ := by
  have hrewrite := rewrite_of_inv (inv_reconciled κ s state detached).1
  rw [reconcileReorganization]
  rw [addEach_addEach, hrewrite]

end MempoolStore

end BBC
