/-
# `BBC.Mempool.Greedy` — `select` takes the best head, whatever the arrival order

`select` keeps a cursor into each sender's queue and looks at the heads in key order.
What it takes is an instance of the greedy rule `HeadSelection.Picks`: the head with the
highest fee, and the smaller id among equal fees.  Ids are distinct in a pool, so the rule
leaves no choice, and the selection is a function of the queues alone.

Two pools that were offered the same transactions, each sender's in the same order, hold
the same queues.  How the senders were interleaved does not show in what they select.
-/
import BBC.Chain.Commitment
import BBC.Lib.HeadSelection
import BBC.Mempool.Admission
import BBC.Mempool.Selection

namespace BBC

open HeadSelection (Picks Keyed Decisive next)

variable {κ : Crypto} {transactions : List SignedTransaction}

namespace Mempool

/-! ## The order of the heads -/

theorem better_iff {t u : SignedTransaction} :
    better κ t u = true ↔ u.fee < t.fee ∨ (t.fee = u.fee ∧ compare (t.id κ) (u.id κ) = .lt) := by
  simp [better, FixedBytes.lessThan]

theorem not_better_iff {t u : SignedTransaction} :
    better κ t u ≠ true ↔
      t.fee ≤ u.fee ∧ (t.fee = u.fee → (compare (t.id κ) (u.id κ)).isGE = true) := by
  rw [Ne, better_iff, not_or, UInt64.not_lt, not_and]
  refine and_congr_right fun _ => forall_congr' fun _ => ?_
  cases compare (t.id κ) (u.id κ) <;> simp

theorem not_better_self (t : SignedTransaction) : better κ t t ≠ true := by
  rw [not_better_iff, Std.ReflOrd.compare_self]
  exact ⟨UInt64.le_refl _, fun _ => rfl⟩

theorem not_better_trans {t u v : SignedTransaction} (h : better κ t u ≠ true)
    (h' : better κ u v ≠ true) : better κ t v ≠ true := by
  rw [not_better_iff] at *
  refine ⟨UInt64.le_trans h.1 h'.1, ?_⟩
  intro heq
  have htu : t.fee = u.fee := UInt64.le_antisymm h.1 (by rw [heq]; exact h'.1)
  exact Std.TransCmp.isGE_trans (h.2 htu) (h'.2 (htu.symm.trans heq))

theorem not_better_of_better {t u : SignedTransaction} (h : better κ t u = true) :
    better κ u t ≠ true := by
  rw [better_iff] at h
  rw [not_better_iff]
  rcases h with hfee | ⟨hfee, hid⟩
  · refine ⟨UInt64.le_of_lt hfee, fun heq => ?_⟩
    rw [heq] at hfee
    exact absurd hfee (UInt64.lt_irrefl _)
  · refine ⟨by rw [hfee]; exact UInt64.le_refl _, fun _ => ?_⟩
    rw [Std.OrientedOrd.eq_swap, hid]
    rfl

/-- Only equal ids leave a tie. -/
theorem id_eq_of_not_better {t u : SignedTransaction} (h : better κ t u ≠ true)
    (h' : better κ u t ≠ true) : t.id κ = u.id κ := by
  rw [not_better_iff] at h h'
  have hfee : t.fee = u.fee := UInt64.le_antisymm h.1 h'.1
  have hge := h.2 hfee
  have hle := h'.2 hfee.symm
  rw [Std.OrientedOrd.eq_swap] at hle
  have heq : compare (t.id κ) (u.id κ) = .eq := by
    cases hcompare : compare (t.id κ) (u.id κ) with
    | lt =>
        rw [hcompare] at hge
        cases hge
    | eq => rfl
    | gt =>
        rw [hcompare] at hle
        cases hle
  exact Std.LawfulEqCmp.compare_eq_iff_eq.mp heq

/-! ## The scan over the queues -/

variable (κ transactions) in
/-- The scan ends with a head that no head is better than. -/
theorem bestQueue_spec (queues : List (Hash256 × SenderQueue)) :
    ∀ best : Option (Hash256 × SignedTransaction),
      (bestQueue κ transactions queues best = none →
        best = none ∧ ∀ e ∈ queues, candidate transactions e.2 = none) ∧
      ∀ sender value, bestQueue κ transactions queues best = some (sender, value) →
        (∀ holder current, best = some (holder, current) → better κ current value ≠ true) ∧
        ∀ e ∈ queues, ∀ v, candidate transactions e.2 = some v → better κ v value ≠ true := by
  induction queues with
  | nil =>
      intro best
      refine ⟨fun h => ⟨h, fun _ he => absurd he List.not_mem_nil⟩, ?_⟩
      intro sender value h
      refine ⟨?_, fun _ he => absurd he List.not_mem_nil⟩
      intro holder current hbest
      have hbest' : best = some (sender, value) := h
      cases hbest.symm.trans hbest'
      exact not_better_self value
  | cons e queues ih =>
      obtain ⟨s, queue⟩ := e
      intro best
      cases hv : candidate transactions queue with
      | none =>
          obtain ⟨hnone, hsome⟩ := ih best
          simp only [bestQueue, hv]
          refine ⟨fun h => ⟨(hnone h).1, List.forall_mem_cons.mpr ⟨hv, (hnone h).2⟩⟩, ?_⟩
          intro sender value h
          refine ⟨(hsome sender value h).1, List.forall_mem_cons.mpr ⟨?_, (hsome sender value h).2⟩⟩
          intro v hcandidate
          rw [hv] at hcandidate
          cases hcandidate
      | some v =>
          -- the best head so far, after this queue
          have hkey : ∀ kept : Hash256 × SignedTransaction, better κ v kept.2 ≠ true →
              (∀ holder current, best = some (holder, current) → better κ current kept.2 ≠ true) →
              ∀ sender value, bestQueue κ transactions queues (some kept) = some (sender, value) →
                (∀ holder current, best = some (holder, current) → better κ current value ≠ true) ∧
                ∀ e ∈ (s, queue) :: queues, ∀ v, candidate transactions e.2 = some v →
                  better κ v value ≠ true := by
            intro kept hfirst hprevious sender value h
            obtain ⟨hkept, hlater⟩ := (ih (some kept)).2 sender value h
            have hkept := hkept kept.1 kept.2 rfl
            refine ⟨fun holder current hbest =>
              not_better_trans (hprevious holder current hbest) hkept, ?_⟩
            refine List.forall_mem_cons.mpr ⟨?_, hlater⟩
            intro u hu
            cases hv.symm.trans hu
            exact not_better_trans hfirst hkept
          have hnever : ∀ kept, bestQueue κ transactions queues (some kept) ≠ none := by
            intro kept h
            cases ((ih (some kept)).1 h).1
          cases best with
          | none =>
              simp only [bestQueue, hv]
              refine ⟨fun h => absurd h (hnever _), ?_⟩
              exact hkey (s, v) (not_better_self v) fun _ _ h => by cases h
          | some current =>
              simp only [bestQueue, hv]
              split
              · rename_i hbetter
                refine ⟨fun h => absurd h (hnever _), hkey (s, v) (not_better_self v) ?_⟩
                intro holder c hc
                cases hc
                exact not_better_of_better hbetter
              · rename_i hbetter
                refine ⟨fun h => absurd h (hnever _), hkey current hbetter ?_⟩
                intro holder c hc
                cases hc
                exact not_better_self _

/-! ## The loop follows the greedy rule -/

/-- The candidate of a queue is the first of what remains. -/
theorem candidate_eq_head? {queues : Queues} (h : QueuesOf κ transactions queues)
    (sender : Hash256) :
    candidate transactions (queues.getD sender {})
      = (remaining transactions queues sender).head? := by
  cases hv : candidate transactions (queues.getD sender {}) with
  | some value =>
      rw [(remaining_of_candidate h hv).2]
      rfl
  | none =>
      have hempty : (queues.getD sender {}).transactionIndices[(queues.getD sender {}).next]?
          = none := by
        cases hindex :
            (queues.getD sender {}).transactionIndices[(queues.getD sender {}).next]? with
        | none => rfl
        | some index =>
            obtain ⟨t, ht, -⟩ := h sender index (List.mem_of_getElem? hindex)
            rw [candidate, hindex] at hv
            exact absurd (ht.symm.trans hv) (by simp)
      rw [remaining, List.drop_eq_nil_of_le (List.getElem?_eq_none_iff.mp hempty)]
      rfl

theorem candidate_mem_toList {queues : Queues} {sender : Hash256} {value : SignedTransaction}
    (h : candidate transactions (queues.getD sender {}) = some value) :
    (sender, queues.getD sender {}) ∈ queues.toList := by
  rw [MapSum.mem_toList]
  rw [Std.ExtTreeMap.getD_eq_getD_getElem?] at h ⊢
  cases hqueue : queues[sender]? with
  | none =>
      rw [hqueue] at h
      cases h
  | some queue => rfl

theorem remaining_advance {queues : Queues} (h : QueuesOf κ transactions queues)
    {sender : Hash256} {value : SignedTransaction}
    (hv : candidate transactions (queues.getD sender {}) = some value) :
    remaining transactions (advance queues sender)
      = HeadSelection.pop (remaining transactions queues) sender := by
  funext other
  by_cases hs : other = sender
  · subst hs
    rw [HeadSelection.pop_self, (remaining_of_candidate h hv).2]
    rfl
  · rw [HeadSelection.pop_other hs, remaining_advance_other (Ne.symm hs)]

theorem picks_selectLoop (count : Nat) :
    ∀ {queues : Queues}, QueuesOf κ transactions queues →
      Picks (fun t u => better κ t u = true) count (remaining transactions queues)
        (selectLoop κ transactions count queues) := by
  induction count with
  | zero => intro queues _; exact .zero _
  | succ count ih =>
      intro queues h
      obtain ⟨hnone, hsome⟩ := bestQueue_spec κ transactions queues.toList none
      rw [selectLoop]
      cases hbest : bestQueue κ transactions queues.toList none with
      | none =>
          refine .exhausted count fun sender => ?_
          rw [← List.head?_eq_none_iff, ← candidate_eq_head? h]
          cases hv : candidate transactions (queues.getD sender {}) with
          | none => rfl
          | some value =>
              have hempty := (hnone hbest).2 _ (candidate_mem_toList hv)
              rw [hv] at hempty
              exact hempty
      | some best =>
          obtain ⟨sender, value⟩ := best
          have hv := candidate_of_bestQueue hbest
          refine .pick (by rw [← candidate_eq_head? h]; exact hv) ?_ ?_
          · intro other u hu
            rw [← candidate_eq_head? h] at hu
            exact (hsome sender value hbest).2 _ (candidate_mem_toList hu) u hu
          · rw [← remaining_advance h hv]
            exact ih (h.advance sender)

/-- The queues of a pool. -/
def queues (κ : Crypto) (m : Mempool) (address : Hash256) : List SignedTransaction :=
  queueOf κ address m.transactions

theorem picks_select (κ : Crypto) (m : Mempool) (k : Nat) :
    Picks (fun t u => better κ t u = true) k (m.queues κ) (m.select κ k) := by
  have hqueues : remaining m.transactions (buildQueues κ m.transactions) = m.queues κ :=
    funext remaining_buildQueues
  rw [← hqueues]
  exact picks_selectLoop k queuesOf_buildQueues

theorem keyed_queues (κ : Crypto) (m : Mempool) :
    Keyed (fun t : SignedTransaction => (t.sender κ).hash) (m.queues κ) :=
  fun _ _ ht => (mem_queueOf.mp ht).2

theorem decisive_queues {m : Mempool} (h : (m.transactions.map (SignedTransaction.id κ)).Nodup) :
    Decisive (fun t u => better κ t u = true) (m.queues κ) := by
  intro a t ht b u hu htu hut
  exact List.inj_on_of_nodup_map h (mem_queueOf.mp ht).1 (mem_queueOf.mp hu).1
    (id_eq_of_not_better htu hut)

/-! ## What is selected -/

/-- A transaction is counted in the queue of its sender. -/
theorem count_queueOf (t : SignedTransaction) (vs : List SignedTransaction) :
    (queueOf κ (t.sender κ).hash vs).count t = vs.count t :=
  List.count_filter (decide_eq_true rfl)

/-- Lists that agree sender by sender hold the same transactions. -/
theorem perm_of_queueOf {ts us : List SignedTransaction}
    (h : ∀ address, queueOf κ address ts = queueOf κ address us) : ts.Perm us := by
  rw [List.perm_iff_count]
  intro t
  rw [← count_queueOf (κ := κ) t ts, ← count_queueOf (κ := κ) t us, h]

theorem length_le_of_queueOf {ts us : List SignedTransaction}
    (h : ∀ address, queueOf κ address ts <+: queueOf κ address us) : ts.length ≤ us.length := by
  refine (List.subperm_ext_iff.mpr ?_).length_le
  intro t _
  rw [← count_queueOf (κ := κ) t ts, ← count_queueOf (κ := κ) t us]
  exact (h _).sublist.count_le t

theorem length_select (κ : Crypto) (m : Mempool) (k : Nat) :
    (m.select κ k).length = min k m.transactions.length := by
  have hpicks := picks_select κ m k
  have hkeyed := keyed_queues κ m
  have hinit : ∀ address, queueOf κ address (m.select κ k) <+: queueOf κ address m.transactions :=
    fun address => hpicks.filter_prefix hkeyed address
  have hle := hpicks.length_le
  have hsize := length_le_of_queueOf hinit
  by_cases hshort : (m.select κ k).length < k
  · have hall : ∀ address,
        queueOf κ address (m.select κ k) = queueOf κ address m.transactions :=
      fun address => hpicks.filter_eq hkeyed hshort address
    have hlength := (perm_of_queueOf hall).length_eq
    omega
  · omega

/-- Fewer turns select an initial piece. -/
theorem take_selectLoop (j : Nat) :
    ∀ {k : Nat} {queues : Queues}, j ≤ k →
      selectLoop κ transactions j queues = (selectLoop κ transactions k queues).take j := by
  induction j with
  | zero => intro k queues _; rfl
  | succ j ih =>
      intro k queues hle
      obtain ⟨k, rfl⟩ : ∃ i, k = i + 1 := ⟨k - 1, by omega⟩
      rw [selectLoop, selectLoop]
      split
      · rfl
      · rw [List.take_succ_cons, ih (Nat.le_of_succ_le_succ hle)]

/-- The next transaction of a sender after some have been selected. -/
def nextOf (κ : Crypto) (m : Mempool) (selected : List SignedTransaction) (address : Hash256) :
    Option SignedTransaction :=
  (queueOf κ address m.transactions)[(queueOf κ address selected).length]?

/-- A reachable pool selects as many transactions as are asked for and there are, none of
them twice, for each sender an initial piece of its queue from the confirmed nonce on.
Each selected transaction is the best among the next ones of all senders: a higher fee,
or the same fee and a smaller id.  Asking for fewer selects an initial piece. -/
theorem select_greedy (κ : Crypto) (state : ChainState) (ops : List Op) (k : Nat) :
    let m := run κ ⟨state, []⟩ ops
    let s := m.select κ k
    s.length = min k m.transactions.length ∧
    s.Nodup ∧ s ⊆ m.transactions ∧
    (∀ address, queueOf κ address s <+: queueOf κ address m.transactions ∧
      noncesOf κ address s
        = List.range' (nonceOf m.chainState.accounts address) (queueOf κ address s).length) ∧
    (∀ (i : Nat) (hi : i < s.length),
      m.nextOf κ (s.take i) (s[i].sender κ).hash = some s[i] ∧
      ∀ address t, m.nextOf κ (s.take i) address = some t → t = s[i] ∨ better κ s[i] t = true) ∧
    ∀ j ≤ k, m.select κ j <+: s := by
  intro m s
  have hinv : m.Inv κ := (inv_run ops (Inv.new state) (Replays.new state)).1
  have hpicks := picks_select κ m k
  have hkeyed := keyed_queues κ m
  have hmem : ∀ t ∈ s, t ∈ m.transactions := fun t ht => mem_of_mem_select ht
  refine ⟨length_select κ m k, hinv.select_nodup k, hmem, ?_, ?_, ?_⟩
  · intro address
    refine ⟨hpicks.filter_prefix hkeyed address, ?_⟩
    rw [← length_noncesOf]
    exact hinv.noncesOf_select k address
  · intro i hi
    obtain ⟨hnext, hbest⟩ := hpicks.best hkeyed i hi
    refine ⟨hnext, ?_⟩
    intro address t ht
    by_cases hbetter : better κ s[i] t = true
    · exact Or.inr hbetter
    · have htmem : t ∈ m.transactions := (mem_queueOf.mp (List.mem_of_getElem? ht)).1
      have hid := id_eq_of_not_better (hbest address t ht) hbetter
      exact Or.inl (List.inj_on_of_nodup_map hinv.ids htmem (hmem _ (List.getElem_mem hi)) hid)
  · intro j hj
    have htake : m.select κ j = s.take j := take_selectLoop j hj
    rw [htake]
    exact List.take_prefix _ _

/-! ## Two pools -/

/-- The selection is a function of the queues. -/
theorem select_eq_of_queues {m m' : Mempool}
    (hids : (m.transactions.map (SignedTransaction.id κ)).Nodup) (h : m.queues κ = m'.queues κ)
    (k : Nat) : m.select κ k = m'.select κ k := by
  have hpicks' := picks_select κ m' k
  rw [← h] at hpicks'
  exact (picks_select κ m k).unique hpicks' (keyed_queues κ m) (decisive_queues hids)

/-- Fewer than ten thousand transactions, offered to two empty pools on one state in two
orders that agree on each sender's transactions: every `add` has the same outcome, and the
selections are the same. -/
theorem pools_converge (κ : Crypto) (state : ChainState) (ts us : List SignedTransaction)
    (hsmall : ts.length < 10000) (hdistinct : ∀ t ∈ ts, ∀ u ∈ ts, t.id κ = u.id κ → t = u)
    (horder : ∀ address, queueOf κ address ts = queueOf κ address us) :
    let m := addAll κ ⟨state, []⟩ ts
    let m' := addAll κ ⟨state, []⟩ us
    (∀ address, outcomesOf κ address (outcomes κ ⟨state, []⟩ ts)
      = outcomesOf κ address (outcomes κ ⟨state, []⟩ us)) ∧
    m.transactions.Perm m'.transactions ∧
    ∀ k, m.select κ k = m'.select κ k := by
  intro m m'
  have hperm : ts.Perm us := perm_of_queueOf horder
  have hlimit : ([] : List SignedTransaction).length + ts.length ≤ maximumMempoolTransactions := by
    simp only [List.length_nil, maximumMempoolTransactions]
    omega
  have hlimit' : ([] : List SignedTransaction).length + us.length ≤ maximumMempoolTransactions := by
    rw [← hperm.length_eq]
    exact hlimit
  have hdistinct' : DistinctIds κ ([] ++ us) := fun t ht u hu =>
    hdistinct t (hperm.mem_iff.mpr ht) u (hperm.mem_iff.mpr hu)
  have hts := fun address => queueOf_addAll address ts (m := ⟨state, []⟩) hlimit hdistinct
  have hus := fun address => queueOf_addAll address us (m := ⟨state, []⟩) hlimit' hdistinct'
  have hqueues : m.queues κ = m'.queues κ := by
    funext address
    have hpool : m.ofSender κ address = m'.ofSender κ address := by
      rw [(hts address).1, (hus address).1, horder address]
    exact congrArg Mempool.transactions hpool
  refine ⟨?_, perm_of_queueOf (congrFun hqueues), ?_⟩
  · intro address
    rw [(hts address).2, (hus address).2, horder address]
  · have hinv : m.Inv κ := Inv.addAll ts (Inv.new state)
    exact select_eq_of_queues hinv.ids hqueues

/-- Two senders may change places. -/
theorem queueOf_swap {t u : SignedTransaction} (h : (t.sender κ).hash ≠ (u.sender κ).hash)
    (address : Hash256) : queueOf κ address [t, u] = queueOf κ address [u, t] := by
  by_cases ht : (t.sender κ).hash = address
  · have hu : (u.sender κ).hash ≠ address := fun hu => h (ht.trans hu.symm)
    rw [queueOf_cons_self ht, queueOf_cons_other hu, queueOf_cons_other hu, queueOf_cons_self ht]
  · rw [queueOf_cons_other ht]
    by_cases hu : (u.sender κ).hash = address
    · rw [queueOf_cons_self hu, queueOf_cons_self hu, queueOf_cons_other ht]
    · rw [queueOf_cons_other hu, queueOf_cons_other hu, queueOf_cons_other ht]

/-- The miner's payment and one that is not funded, in both orders. -/
theorem pools_converge_swapped :
    let state := (Blockchain.replay reference 2 [minedFirst]).state
    let m := addAll reference ⟨state, []⟩ [minerPayment, samplePayment]
    let m' := addAll reference ⟨state, []⟩ [samplePayment, minerPayment]
    (∀ address, outcomesOf reference address
        (outcomes reference ⟨state, []⟩ [minerPayment, samplePayment])
      = outcomesOf reference address
          (outcomes reference ⟨state, []⟩ [samplePayment, minerPayment])) ∧
    m.transactions.Perm m'.transactions ∧
    ∀ k, m.select reference k = m'.select reference k :=
  pools_converge reference (Blockchain.replay reference 2 [minedFirst]).state
    [minerPayment, samplePayment] [samplePayment, minerPayment] (by decide) (by decide +kernel)
    (queueOf_swap (by decide +kernel))

end Mempool

end BBC
