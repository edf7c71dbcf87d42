/-
# `BBC.Mempool.Admission` — admission looks at one sender's queue

`add` scans the whole pool, but what it decides depends on the sender's own pending
transactions and on nothing else: a pending transaction of another sender is passed over,
unless the two share an id.  A pool is therefore a family of queues, one for each sender,
and adding a list fills each queue by itself (`queueOf_addAll`).

A pool that `add` has filled is also its own replay: adding its transactions again, in
their order and to the same state, admits all of them (`Replays`).
-/
import BBC.Mempool.Basic

namespace BBC

/-- What a transaction takes from its sender. -/
def debit (t : SignedTransaction) : Nat := t.amount.toNat + t.fee.toNat

/-- The nonce of a transaction. -/
def nonce (t : SignedTransaction) : Nat := t.accountNonce.toNat

/-- The transactions of one sender, in order. -/
def queueOf (κ : Crypto) (address : Hash256) (ts : List SignedTransaction) :
    List SignedTransaction :=
  ts.filter fun t => (t.sender κ).hash = address

/-- Equal ids mean equal transactions. -/
def DistinctIds (κ : Crypto) (ts : List SignedTransaction) : Prop :=
  ∀ t ∈ ts, ∀ u ∈ ts, t.id κ = u.id κ → t = u

variable {κ : Crypto}

theorem queueOf_append (address : Hash256) (ts us : List SignedTransaction) :
    queueOf κ address (ts ++ us) = queueOf κ address ts ++ queueOf κ address us :=
  List.filter_append ..

theorem queueOf_cons_self {address : Hash256} {t : SignedTransaction}
    (h : (t.sender κ).hash = address) (ts : List SignedTransaction) :
    queueOf κ address (t :: ts) = t :: queueOf κ address ts :=
  List.filter_cons_of_pos (by simpa using h)

theorem queueOf_cons_other {address : Hash256} {t : SignedTransaction}
    (h : (t.sender κ).hash ≠ address) (ts : List SignedTransaction) :
    queueOf κ address (t :: ts) = queueOf κ address ts :=
  List.filter_cons_of_neg (by simpa using h)

theorem mem_queueOf {address : Hash256} {t : SignedTransaction} {ts : List SignedTransaction} :
    t ∈ queueOf κ address ts ↔ t ∈ ts ∧ (t.sender κ).hash = address := by
  rw [queueOf, List.mem_filter, decide_eq_true_eq]

theorem length_noncesOf (address : Hash256) (ts : List SignedTransaction) :
    (noncesOf κ address ts).length = (queueOf κ address ts).length :=
  List.length_map _

theorem DistinctIds.mono {ts us : List SignedTransaction} (h : DistinctIds κ us) (hsub : ts ⊆ us) :
    DistinctIds κ ts :=
  fun t ht u hu => h t (hsub ht) u (hsub hu)

namespace Mempool

/-! ## The replay of a pool -/

/-- Adding a pool's transactions again gives the pool. -/
def Replays (κ : Crypto) (m : Mempool) : Prop := addAll κ ⟨m.chainState, []⟩ m.transactions = m

theorem addAll_concat (m : Mempool) (ts : List SignedTransaction) (t : SignedTransaction) :
    m.addAll κ (ts ++ [t]) = ((m.addAll κ ts).add κ t).1 := by
  rw [addAll, addAll, List.foldl_append]
  rfl

theorem Replays.new (state : ChainState) : Replays κ ⟨state, []⟩ := rfl

theorem Replays.add {m : Mempool} (h : m.Replays κ) (t : SignedTransaction) :
    (m.add κ t).1.Replays κ := by
  rcases add_cases κ m t with ⟨hsame, -⟩ | ⟨-, -, hnext⟩
  · rw [hsame]
    exact h
  · have hreplay : addAll κ ⟨m.chainState, []⟩ (m.transactions ++ [t]) = (m.add κ t).1 := by
      rw [addAll_concat]
      exact congrArg (fun pool => (Mempool.add κ pool t).1) h
    rw [hnext] at hreplay ⊢
    exact hreplay

theorem Replays.addAll (ts : List SignedTransaction) :
    ∀ {m : Mempool}, m.Replays κ → (m.addAll κ ts).Replays κ := by
  induction ts with
  | nil => intro m h; exact h
  | cons t ts ih => intro m h; exact ih (h.add t)

/-! ## Every pool -/

/-- A call that changes a pool. -/
inductive Op where
  | add (transaction : SignedTransaction)
  | revalidate (chainState : ChainState)

/-- The pool after one call. -/
def Op.apply (κ : Crypto) (m : Mempool) : Op → Mempool
  | .add transaction => (m.add κ transaction).1
  | .revalidate chainState => (m.revalidate κ chainState).1

/-- The pool after a run of calls. -/
def run (κ : Crypto) (m : Mempool) (ops : List Op) : Mempool := ops.foldl (Op.apply κ) m

/-- What one call keeps. -/
theorem Inv.apply {m : Mempool} (h : m.Inv κ) (hreplay : m.Replays κ) (op : Op) :
    (op.apply κ m).Inv κ ∧ (op.apply κ m).Replays κ := by
  cases op with
  | add t => exact ⟨h.add t, hreplay.add t⟩
  | revalidate state => exact ⟨inv_revalidate m state, (Replays.new state).addAll m.transactions⟩

theorem inv_run (ops : List Op) :
    ∀ {m : Mempool}, m.Inv κ → m.Replays κ → (run κ m ops).Inv κ ∧ (run κ m ops).Replays κ := by
  induction ops with
  | nil => intro m h hreplay; exact ⟨h, hreplay⟩
  | cons op ops ih =>
      intro m h hreplay
      obtain ⟨hnext, hnextReplay⟩ := h.apply hreplay op
      exact ih hnext hnextReplay

/-- The scan reports `insufficient_balance` in its overflow branch only, and does not
reach it while the debits that are added up fit. -/
theorem scanPending_no_overflow {t : SignedTransaction} (ps : List SignedTransaction) :
    ∀ {reserved count : UInt64}, reserved.toNat + debitsOf κ (t.sender κ).hash ps < 2 ^ 64 →
      scanPending κ t ps reserved count ≠ .error .insufficientBalance := by
  induction ps with
  | nil => intro reserved count _ h; cases h
  | cons p ps ih =>
      intro reserved count hfit h
      rw [scanPending] at h
      by_cases hid : p.id κ = t.id κ
      · rw [if_pos hid] at h
        cases h
      rw [if_neg hid] at h
      by_cases hsender : p.sender κ = t.sender κ
      · have hhash := sender_eq_iff.mp hsender
        have hdebit := toNat_add_of_lt p.debit_lt
        rw [debitsOf_cons_self hhash] at hfit
        have hroom : reserved.toNat + (p.amount + p.fee).toNat < 2 ^ 64 := by omega
        rw [if_neg (not_not.mpr hsender)] at h
        by_cases hnonce : p.accountNonce = t.accountNonce
        · rw [if_pos hnonce] at h
          cases h
        rw [if_neg hnonce] at h
        dsimp only at h
        rw [if_neg (by rw [gt_room]; omega)] at h
        refine ih ?_ h
        rw [toNat_add_of_lt hroom]
        omega
      · have hhash : (p.sender κ).hash ≠ (t.sender κ).hash :=
          fun he => hsender (sender_eq_iff.mpr he)
        rw [debitsOf_cons_other hhash] at hfit
        rw [if_pos hsender] at h
        exact ih hfit h

theorem Inv.no_overflow {m : Mempool} (h : m.Inv κ) (t : SignedTransaction) :
    scanPending κ t m.transactions 0 0 ≠ .error .insufficientBalance := by
  refine scanPending_no_overflow m.transactions ?_
  have hfunds := h.funds (t.sender κ).hash
  have hbalance : balanceOf m.chainState.accounts (t.sender κ).hash < 2 ^ 64 :=
    UInt64.toNat_lt _
  rw [UInt64.toNat_zero]
  omega

theorem Replays.revalidate {m : Mempool} (h : m.Replays κ) :
    m.revalidate κ m.chainState = (m, 0) := by
  have hnext : Mempool.addAll κ ⟨m.chainState, []⟩ m.transactions = m := h
  rw [Mempool.revalidate, hnext]
  exact congrArg (Prod.mk m) (Nat.sub_self _)

/-- Whatever has been added to a pool and whatever it has been revalidated against: it is
within its limit, its ids are distinct, the nonces of each sender continue the confirmed
one and its debits fit its confirmed balance.  The scan of `add` does not overflow, a
refused `add` changes nothing and revalidating against the same state removes nothing. -/
theorem run_invariant (κ : Crypto) (state : ChainState) (ops : List Op) :
    let m := run κ ⟨state, []⟩ ops
    m.transactions.length ≤ 10000 ∧
    (m.transactions.map (SignedTransaction.id κ)).Nodup ∧
    (∀ address, noncesOf κ address m.transactions
      = List.range' (nonceOf m.chainState.accounts address)
          (queueOf κ address m.transactions).length) ∧
    (∀ address, debitsOf κ address m.transactions ≤ balanceOf m.chainState.accounts address) ∧
    (∀ t, scanPending κ t m.transactions 0 0 ≠ .error .insufficientBalance) ∧
    (∀ t, (m.add κ t).2 ≠ .none → (m.add κ t).1 = m) ∧
    m.revalidate κ m.chainState = (m, 0) := by
  intro m
  have hrun : m.Inv κ ∧ m.Replays κ := inv_run ops (Inv.new state) (Replays.new state)
  obtain ⟨hinv, hreplay⟩ := hrun
  refine ⟨hinv.size, hinv.ids, ?_, hinv.funds, hinv.no_overflow, ?_, hreplay.revalidate⟩
  · intro address
    rw [← length_noncesOf]
    exact hinv.nonces address
  · intro t hrefused
    rcases add_cases κ m t with ⟨hsame, -⟩ | ⟨-, haccepted, -⟩
    · exact hsame
    · exact absurd haccepted hrefused

/-! ## Admission, exactly -/

/-- A scan that meets no equal id and no equal nonce ends, as long as the debits fit. -/
theorem scanPending_isOk {t : SignedTransaction} (ps : List SignedTransaction) :
    ∀ {reserved count : UInt64}, (∀ p ∈ ps, p.id κ ≠ t.id κ) →
      (∀ p ∈ ps, p.sender κ = t.sender κ → p.accountNonce ≠ t.accountNonce) →
      reserved.toNat + debitsOf κ (t.sender κ).hash ps < 2 ^ 64 →
        ∃ r, scanPending κ t ps reserved count = .ok r := by
  induction ps with
  | nil => intro reserved count _ _ _; exact ⟨_, rfl⟩
  | cons p ps ih =>
      intro reserved count hids hnonces hfit
      obtain ⟨hid, hids⟩ := List.forall_mem_cons.mp hids
      obtain ⟨hnonce, hnonces⟩ := List.forall_mem_cons.mp hnonces
      rw [scanPending, if_neg hid]
      by_cases hsender : p.sender κ = t.sender κ
      · have hdebit := toNat_add_of_lt p.debit_lt
        rw [debitsOf_cons_self (sender_eq_iff.mp hsender)] at hfit
        have hroom : reserved.toNat + (p.amount + p.fee).toNat < 2 ^ 64 := by omega
        rw [if_neg (not_not.mpr hsender), if_neg (hnonce hsender)]
        dsimp only
        rw [if_neg (by rw [gt_room]; omega)]
        refine ih hids hnonces ?_
        rw [toNat_add_of_lt hroom]
        omega
      · have hhash : (p.sender κ).hash ≠ (t.sender κ).hash :=
          fun he => hsender (sender_eq_iff.mpr he)
        rw [debitsOf_cons_other hhash] at hfit
        rw [if_pos hsender]
        exact ih hids hnonces hfit

/-- The last checks, as far as they can fail. -/
theorem checkAccount_of_fits {account : AccountState} {t : SignedTransaction}
    {reserved count : UInt64} (hroom : account.nextNonce ≠ maxU64)
    (hnonce : t.accountNonce.toNat = account.nextNonce.toNat + count.toNat)
    (hfunds : reserved.toNat + debit t ≤ account.balance.toNat) :
    checkAccount account t reserved count = .none := by
  have hlt := UInt64.toNat_lt t.accountNonce
  have hdebit := toNat_add_of_lt t.debit_lt
  rw [debit] at hfunds
  have hle : reserved ≤ account.balance := UInt64.le_iff_toNat_le.mpr (by omega)
  have hcount : ¬ count > room account.nextNonce := by
    rw [gt_room]
    omega
  have hsum : account.nextNonce + count = t.accountNonce := by
    rw [← UInt64.toNat_inj, toNat_add_of_lt (by omega), hnonce]
  have hcover : ¬ t.amount + t.fee > account.balance - reserved := by
    refine UInt64.not_lt.mpr (UInt64.le_iff_toNat_le.mpr ?_)
    rw [hdebit, UInt64.toNat_sub_of_le _ _ hle]
    omega
  rw [checkAccount, if_neg (not_or.mpr ⟨hroom, hcount⟩), hsum, if_neg (not_not.mpr rfl),
    if_neg (not_or.mpr ⟨UInt64.not_lt.mpr hle, hcover⟩)]

/-- Admission looks at the next nonce and at what the balance still covers. -/
theorem admission_none_iff {m : Mempool} (h : m.Inv κ) {t : SignedTransaction}
    (hsize : m.transactions.length < maximumMempoolTransactions)
    (hids : ∀ p ∈ m.transactions, p.id κ ≠ t.id κ)
    (hroom : nonceOf m.chainState.accounts (t.sender κ).hash ≠ maxU64.toNat) :
    m.admission κ t = .none ↔
      nonce t = nonceOf m.chainState.accounts (t.sender κ).hash
        + (noncesOf κ (t.sender κ).hash m.transactions).length ∧
      debitsOf κ (t.sender κ).hash m.transactions + debit t
        ≤ balanceOf m.chainState.accounts (t.sender κ).hash := by
  constructor
  · intro hnone
    have ha := admitted_of_admission hnone
    exact ⟨ha.nonce, ha.funded⟩
  · rintro ⟨hnonce, hfunds⟩
    have hbalance : balanceOf m.chainState.accounts (t.sender κ).hash < 2 ^ 64 :=
      UInt64.toNat_lt _
    obtain ⟨r, hscan⟩ : ∃ r, scanPending κ t m.transactions 0 0 = .ok r := by
      refine scanPending_isOk _ hids ?_ ?_
      · intro p hp hsender heq
        -- a pending nonce is below the next one
        have hmem : p.accountNonce.toNat ∈ noncesOf κ (t.sender κ).hash m.transactions :=
          List.mem_map_of_mem (List.mem_filter.mpr ⟨hp, by simpa using sender_eq_iff.mp hsender⟩)
        rw [h.nonces, List.mem_range'_1, heq] at hmem
        rw [nonce] at hnonce
        omega
      · rw [UInt64.toNat_zero]
        omega
    have hlength : (0 : UInt64).toNat + m.transactions.length < 2 ^ 64 := by
      have : m.transactions.length < 10000 := hsize
      rw [UInt64.toNat_zero]
      omega
    obtain ⟨-, hreserved, hcount⟩ := scanPending_ok _ hscan hlength
    rw [UInt64.toNat_zero, Nat.zero_add] at hreserved hcount
    rw [admission, if_neg (not_le.mpr hsize), hscan]
    refine checkAccount_of_fits (fun heq => hroom (congrArg UInt64.toNat heq)) ?_ ?_
    · rw [hcount]
      exact hnonce
    · rw [hreserved]
      exact hfunds

/-! ## One queue for each sender -/

/-- What a scan looks at. -/
theorem scanPending_queueOf {t : SignedTransaction} (ps : List SignedTransaction) :
    (∀ p ∈ ps, p.id κ = t.id κ → p = t) → ∀ reserved count : UInt64,
      scanPending κ t ps reserved count
        = scanPending κ t (queueOf κ (t.sender κ).hash ps) reserved count := by
  induction ps with
  | nil => intro _ reserved count; rfl
  | cons p ps ih =>
      intro hids reserved count
      obtain ⟨hfirst, hrest⟩ := List.forall_mem_cons.mp hids
      by_cases hsender : p.sender κ = t.sender κ
      · rw [queueOf_cons_self (sender_eq_iff.mp hsender), scanPending, scanPending]
        split
        · rfl
        split
        · exact ih hrest _ _
        split
        · rfl
        dsimp only
        split
        · rfl
        · exact ih hrest _ _
      · have hhash : (p.sender κ).hash ≠ (t.sender κ).hash :=
          fun he => hsender (sender_eq_iff.mpr he)
        have hid : p.id κ ≠ t.id κ := by
          intro heq
          rw [hfirst heq] at hsender
          exact hsender rfl
        rw [queueOf_cons_other hhash, scanPending, if_neg hid, if_pos hsender]
        exact ih hrest _ _

/-- The pool of one sender's transactions. -/
def ofSender (κ : Crypto) (m : Mempool) (address : Hash256) : Mempool :=
  { m with transactions := queueOf κ address m.transactions }

theorem admission_ofSender {m : Mempool} {t : SignedTransaction}
    (hroom : m.transactions.length < maximumMempoolTransactions)
    (hids : ∀ p ∈ m.transactions, p.id κ = t.id κ → p = t) :
    m.admission κ t = (m.ofSender κ (t.sender κ).hash).admission κ t := by
  have hlength : (queueOf κ (t.sender κ).hash m.transactions).length ≤ m.transactions.length :=
    List.length_filter_le _ _
  rw [admission, admission, if_neg (not_le.mpr hroom), if_neg (not_le.mpr ?_),
    scanPending_queueOf _ hids]
  · rfl
  · exact Nat.lt_of_le_of_lt hlength hroom

/-- One `add`, seen from the queue of its sender. -/
theorem add_ofSender {m : Mempool} {t : SignedTransaction}
    (hroom : m.transactions.length < maximumMempoolTransactions)
    (hids : ∀ p ∈ m.transactions, p.id κ = t.id κ → p = t) :
    ((m.ofSender κ (t.sender κ).hash).add κ t).1 = (m.add κ t).1.ofSender κ (t.sender κ).hash ∧
      ((m.ofSender κ (t.sender κ).hash).add κ t).2 = (m.add κ t).2 := by
  have hsame := admission_ofSender hroom hids
  rw [add, add, ← hsame]
  by_cases h : m.admission κ t = .none
  · rw [if_pos h, if_pos h]
    refine ⟨?_, rfl⟩
    have hlast : queueOf κ (t.sender κ).hash [t] = [t] := queueOf_cons_self rfl []
    rw [ofSender, ofSender, queueOf_append, hlast]
  · rw [if_neg h, if_neg h]
    exact ⟨rfl, rfl⟩

/-- One `add`, seen from another queue. -/
theorem add_other {t : SignedTransaction} {address : Hash256} (h : (t.sender κ).hash ≠ address)
    (m : Mempool) : (m.add κ t).1.ofSender κ address = m.ofSender κ address := by
  rcases add_cases κ m t with ⟨hsame, -⟩ | ⟨-, -, hnext⟩
  · rw [hsame]
  · have hlast : queueOf κ address [t] = [] := queueOf_cons_other h []
    rw [hnext, ofSender, ofSender, queueOf_append, hlast, List.append_nil]

theorem length_add_le (m : Mempool) (t : SignedTransaction) :
    (m.add κ t).1.transactions.length ≤ m.transactions.length + 1 := by
  rcases add_cases κ m t with ⟨hsame, -⟩ | ⟨-, -, hnext⟩
  · rw [hsame]
    exact Nat.le_succ _
  · rw [hnext, List.length_append]
    rfl

theorem add_subset (m : Mempool) (t : SignedTransaction) :
    (m.add κ t).1.transactions ⊆ m.transactions ++ [t] := by
  rcases add_cases κ m t with ⟨hsame, -⟩ | ⟨-, -, hnext⟩
  · rw [hsame]
    exact List.subset_append_left _ _
  · rw [hnext]
    exact List.Subset.refl _

/-- What a run of `add`s returns. -/
def outcomes (κ : Crypto) : Mempool → List SignedTransaction →
    List (SignedTransaction × MempoolError)
  | _, [] => []
  | m, t :: ts => (t, (m.add κ t).2) :: outcomes κ (m.add κ t).1 ts

/-- The outcomes for one sender. -/
def outcomesOf (κ : Crypto) (address : Hash256)
    (os : List (SignedTransaction × MempoolError)) : List (SignedTransaction × MempoolError) :=
  os.filter fun o => (o.1.sender κ).hash = address

/-- Below the limit, adding a list fills each queue by itself. -/
theorem queueOf_addAll (address : Hash256) (ts : List SignedTransaction) :
    ∀ {m : Mempool}, m.transactions.length + ts.length ≤ maximumMempoolTransactions →
      DistinctIds κ (m.transactions ++ ts) →
      (m.addAll κ ts).ofSender κ address
          = (m.ofSender κ address).addAll κ (queueOf κ address ts) ∧
        outcomesOf κ address (outcomes κ m ts)
          = outcomes κ (m.ofSender κ address) (queueOf κ address ts) := by
  induction ts with
  | nil => intro m _ _; exact ⟨rfl, rfl⟩
  | cons t ts ih =>
      intro m hroom hdistinct
      rw [List.length_cons] at hroom
      have hlength := length_add_le (κ := κ) m t
      have hsubset : (m.add κ t).1.transactions ++ ts ⊆ m.transactions ++ t :: ts := by
        rw [List.append_cons]
        exact List.append_subset.mpr ⟨List.subset_append_of_subset_left _ (add_subset m t),
          List.subset_append_right _ _⟩
      have hids : ∀ p ∈ m.transactions, p.id κ = t.id κ → p = t := fun p hp =>
        hdistinct p (List.mem_append_left _ hp) t (List.mem_append_right _ List.mem_cons_self)
      obtain ⟨hpool, houtcomes⟩ := ih (by omega) (hdistinct.mono hsubset)
      rw [addAll_cons, hpool, outcomes, outcomesOf]
      by_cases hs : (t.sender κ).hash = address
      · subst hs
        obtain ⟨hadd, herror⟩ := add_ofSender (m := m) (t := t) (by omega) hids
        rw [queueOf_cons_self rfl, addAll_cons, outcomes, hadd, herror,
          List.filter_cons_of_pos (by simp)]
        exact ⟨rfl, congrArg (List.cons _) houtcomes⟩
      · rw [add_other hs] at houtcomes ⊢
        rw [queueOf_cons_other hs, List.filter_cons_of_neg (by simpa using hs)]
        exact ⟨rfl, houtcomes⟩

end Mempool

end BBC
