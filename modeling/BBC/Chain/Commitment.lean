/-
# `BBC.Chain.Commitment` — a block id commits to the whole block

The id hashes the 165-byte header, the header holds the transaction root, the root
hashes the transaction ids and an id hashes the transaction with its signature.
Nothing is assumed of `sha256` but that it has no collision on the strings that are
hashed on the way (`Block.hashedStrings`); each layer is then injective:

    header          its fields stand at fixed offsets
    root            distinct ids, and three domain bytes (`Merkle.level_or_level`)
    transaction id  the fields of a transaction stand at fixed offsets
-/
import BBC.Chain.BlockCodec
import BBC.Lib.Merkle

namespace BBC

variable (κ : Crypto)

/-! ## The strings that are hashed -/

/-- The string of one inner node. -/
def nodeString (p : Hash256 × Hash256) : Bytes :=
  merkleNodeDomain :: (p.1.toList ++ p.2.toList)

/-- The string of one leaf. -/
def leafString (t : SignedTransaction) : Bytes := merkleLeafDomain :: (t.id κ).toList

/-- The strings hashed by the `while` loop of `calculate_transaction_root`. -/
def merkleStrings : Nat → List Hash256 → List Bytes
  | 0, _ => []
  | fuel + 1, level =>
      if level.length > 1 then
        (Merkle.paired level).map nodeString ++ merkleStrings fuel (merkleStep κ level)
      else []

/-- The strings hashed by `calculate_transaction_root`. -/
def rootStrings (ts : List SignedTransaction) : List Bytes :=
  if ts.isEmpty then [[emptyRootDomain]]
  else ts.map (leafString κ)
    ++ merkleStrings κ ts.length (ts.map fun t => hashLeaf κ (t.id κ))

/-- The strings hashed for a block's id, its root and the ids of its transactions. -/
def Block.hashedStrings (b : Block) : List Bytes :=
  b.serializeHeader ::
    (rootStrings κ b.transactions ++ b.transactions.map SignedTransaction.serialize)

/-- `sha256` tells these strings apart. -/
def CollisionFree (xs : List Bytes) : Prop :=
  ∀ x ∈ xs, ∀ y ∈ xs, κ.sha256 x = κ.sha256 y → x = y

instance (xs : List Bytes) : Decidable (CollisionFree κ xs) :=
  inferInstanceAs (Decidable (∀ x ∈ xs, ∀ y ∈ xs, κ.sha256 x = κ.sha256 y → x = y))

variable {κ}

/-- Strings with distinct digests have no collision. -/
theorem collisionFree_of_nodup {xs : List Bytes} (h : (xs.map κ.sha256).Nodup) :
    CollisionFree κ xs := by
  intro x hx y hy heq
  exact List.inj_on_of_nodup_map h hx hy heq

theorem CollisionFree.mono {xs ys : List Bytes} (h : CollisionFree κ ys) (hsub : xs ⊆ ys) :
    CollisionFree κ xs :=
  fun x hx y hy => h x (hsub hx) y (hsub hy)

/-! ## The transaction root -/

/-- One turn of the loop is one step up the tree. -/
theorem merkleStep_eq (κ : Crypto) : ∀ level : List Hash256,
    merkleStep κ level = Merkle.up (hashNode κ) level
  | [] => rfl
  | [a] => rfl
  | a :: b :: rest => by
      have ih := merkleStep_eq κ rest
      have hparity : (a :: b :: rest).length % 2 = rest.length % 2 := by
        rw [List.length_cons, List.length_cons]
        omega
      have hup : Merkle.up (hashNode κ) (a :: b :: rest)
          = hashNode κ a b :: Merkle.up (hashNode κ) rest := rfl
      rw [hup, ← ih, merkleStep, merkleStep, hparity]
      split
      · rename_i hodd
        obtain ⟨c, tail, rfl⟩ : ∃ c tail, rest = c :: tail :=
          List.exists_cons_of_ne_nil fun hnil => hodd (by rw [hnil]; rfl)
        rw [List.getLast?_cons_cons, List.getLast?_cons_cons]
        rfl
      · rfl

/-- The loop climbs to a level of one entry and returns it. -/
theorem level_merkleLoop (κ : Crypto) : ∀ (fuel : Nat) {level : List Hash256},
    level ≠ [] → level.length ≤ fuel →
      Merkle.Level (hashNode κ) level [merkleLoop κ fuel level] := by
  intro fuel
  induction fuel with
  | zero =>
      intro level hne hlen
      exact absurd (List.length_eq_zero_iff.mp (Nat.le_zero.mp hlen)) hne
  | succ fuel ih =>
      intro level hne hlen
      rw [merkleLoop]
      by_cases hmore : level.length > 1
      · have hup := Merkle.length_up (hashNode κ) hmore
        rw [if_pos hmore, merkleStep_eq]
        exact .climb hmore (ih (List.ne_nil_of_length_pos hup.1) (by omega))
      · rw [if_neg hmore]
        obtain ⟨a, tail, rfl⟩ := List.exists_cons_of_ne_nil hne
        have htail : tail = [] := by
          rw [List.length_cons] at hmore
          exact List.length_eq_zero_iff.mp (by omega)
        rw [htail]
        exact .refl [a]

/-- Every pair combined on the way to the root has its string among those hashed. -/
theorem nodeString_mem_merkleStrings {level : List Hash256} {p : Hash256 × Hash256}
    (h : p ∈ Merkle.combined (hashNode κ) level) :
    ∀ {fuel : Nat}, level.length ≤ fuel → nodeString p ∈ merkleStrings κ fuel level := by
  obtain ⟨m, hlevel, hmore, hp⟩ := h
  induction hlevel with
  | refl l =>
      intro fuel hfuel
      obtain ⟨fuel, rfl⟩ : ∃ k, fuel = k + 1 := ⟨fuel - 1, by omega⟩
      rw [merkleStrings, if_pos hmore]
      exact List.mem_append_left _ (List.mem_map_of_mem hp)
  | @climb l m hlen _ ih =>
      intro fuel hfuel
      obtain ⟨fuel, rfl⟩ : ∃ k, fuel = k + 1 := ⟨fuel - 1, by omega⟩
      have hup := Merkle.length_up (hashNode κ) hlen
      rw [merkleStrings, if_pos hlen, merkleStep_eq]
      exact List.mem_append_right _ (ih hmore hp (by omega))

theorem nodeString_inj {p q : Hash256 × Hash256} (h : nodeString p = nodeString q) : p = q := by
  obtain ⟨hleft, hright⟩ := List.append_inj (List.cons.inj h).2 (by simp)
  exact Prod.ext (List.Vector.toList_injective hleft) (List.Vector.toList_injective hright)

theorem leafString_inj {t u : SignedTransaction} (h : leafString κ t = leafString κ u) :
    t.id κ = u.id κ :=
  List.Vector.toList_injective (List.cons.inj h).2

/-- A root that is not of the empty list: the leaf level and what is hashed above it. -/
theorem level_transactionRoot {ts : List SignedTransaction} (hne : ts ≠ []) :
    Merkle.Level (hashNode κ) (ts.map fun t => hashLeaf κ (t.id κ))
        [calculateTransactionRoot κ ts] ∧
      rootStrings κ ts = ts.map (leafString κ)
        ++ merkleStrings κ ts.length (ts.map fun t => hashLeaf κ (t.id κ)) := by
  have hempty : ts.isEmpty = false := by
    rw [List.isEmpty_eq_false_iff]
    exact hne
  rw [calculateTransactionRoot, rootStrings, hempty]
  exact ⟨level_merkleLoop κ ts.length (by simpa using hne) (by simp), rfl⟩

theorem leafString_mem_rootStrings {ts : List SignedTransaction} {t : SignedTransaction}
    (ht : t ∈ ts) : leafString κ t ∈ rootStrings κ ts := by
  rw [(level_transactionRoot (κ := κ) (List.ne_nil_of_mem ht)).2]
  exact List.mem_append_left _ (List.mem_map_of_mem ht)

theorem nodeString_mem_rootStrings {ts : List SignedTransaction} (hne : ts ≠ [])
    {p : Hash256 × Hash256}
    (hp : p ∈ Merkle.combined (hashNode κ) (ts.map fun t => hashLeaf κ (t.id κ))) :
    nodeString p ∈ rootStrings κ ts := by
  rw [(level_transactionRoot (κ := κ) hne).2]
  exact List.mem_append_right _ (nodeString_mem_merkleStrings hp (by simp))

/-- The root of a list that is not empty is a leaf hash or a node hash of its own. -/
theorem transactionRoot_cases {ts : List SignedTransaction} (hne : ts ≠ []) :
    ∃ x ∈ rootStrings κ ts, κ.sha256 x = calculateTransactionRoot κ ts ∧
      x.head? ≠ some emptyRootDomain := by
  obtain ⟨hlevel, -⟩ := level_transactionRoot (κ := κ) hne
  rcases hlevel.eq_or_combined with hleaf | hnode
  · have hmem : calculateTransactionRoot κ ts ∈ ts.map fun t => hashLeaf κ (t.id κ) := by
      rw [hleaf]
      exact List.mem_cons_self
    obtain ⟨t, ht, heq⟩ := List.mem_map.mp hmem
    exact ⟨leafString κ t, leafString_mem_rootStrings ht, heq,
      by simp [leafString, merkleLeafDomain, emptyRootDomain]⟩
  · obtain ⟨p, hp, heq⟩ := hnode _ List.mem_cons_self
    exact ⟨nodeString p, nodeString_mem_rootStrings hne hp, heq,
      by simp [nodeString, merkleNodeDomain, emptyRootDomain]⟩

section
variable {ts us : List SignedTransaction}
  (hfree : CollisionFree κ (rootStrings κ ts ++ rootStrings κ us))

include hfree

/-- Leaves and node hashes lie apart: the domain bytes differ. -/
theorem leaf_ne_node {t : SignedTransaction} (ht : t ∈ ts) (hne : us ≠ []) {p : Hash256 × Hash256}
    (hp : p ∈ Merkle.combined (hashNode κ) (us.map fun t => hashLeaf κ (t.id κ))) :
    hashNode κ p.1 p.2 ≠ hashLeaf κ (t.id κ) := by
  intro heq
  have hstrings := hfree (nodeString p)
    (List.mem_append_right _ (nodeString_mem_rootStrings hne hp)) (leafString κ t)
    (List.mem_append_left _ (leafString_mem_rootStrings ht)) heq
  exact absurd (List.cons.inj hstrings).1 (by decide)

theorem nodup_leaves (hts : (ts.map (SignedTransaction.id κ)).Nodup) :
    (ts.map fun t => hashLeaf κ (t.id κ)).Nodup := by
  have hnodup : ts.Pairwise fun t u => t.id κ ≠ u.id κ := List.pairwise_map.mp hts
  refine List.pairwise_map.mpr (hnodup.imp_of_mem ?_)
  intro t u ht hu hne heq
  refine hne (leafString_inj (κ := κ) ?_)
  exact hfree _ (List.mem_append_left _ (leafString_mem_rootStrings ht)) _
    (List.mem_append_left _ (leafString_mem_rootStrings hu)) heq

/-- A leaf level that is a level of the other tree is that tree's leaf level. -/
theorem leaves_eq_of_level (hts : ts ≠ []) (hus : us ≠ [])
    (h : Merkle.Level (hashNode κ) (us.map fun t => hashLeaf κ (t.id κ))
      (ts.map fun t => hashLeaf κ (t.id κ))) :
    (ts.map fun t => hashLeaf κ (t.id κ)) = us.map fun t => hashLeaf κ (t.id κ) := by
  rcases h.eq_or_combined with heq | hnode
  · exact heq.symm
  · obtain ⟨t, tail, rfl⟩ := List.exists_cons_of_ne_nil hts
    obtain ⟨p, hp, heq⟩ := hnode (hashLeaf κ (t.id κ)) List.mem_cons_self
    exact absurd heq (leaf_ne_node hfree List.mem_cons_self hus hp)

/-- The empty list has a root of its own. -/
theorem eq_nil_of_transactionRoot_eq (hts : ts = [])
    (h : calculateTransactionRoot κ ts = calculateTransactionRoot κ us) : us = [] := by
  by_contra hus
  subst hts
  obtain ⟨x, hx, heq, hhead⟩ := transactionRoot_cases (κ := κ) hus
  have hstrings := hfree [emptyRootDomain] (List.mem_append_left _ List.mem_cons_self) x
    (List.mem_append_right _ hx) (h.trans heq.symm)
  rw [← hstrings] at hhead
  exact hhead rfl

end

/-- The root binds the ids of a list without duplicate ids, their number and order. -/
theorem ids_eq_of_transactionRoot_eq {ts us : List SignedTransaction}
    (hfree : CollisionFree κ (rootStrings κ ts ++ rootStrings κ us))
    (hts : (ts.map (SignedTransaction.id κ)).Nodup)
    (hus : (us.map (SignedTransaction.id κ)).Nodup)
    (h : calculateTransactionRoot κ ts = calculateTransactionRoot κ us) :
    ts.map (SignedTransaction.id κ) = us.map (SignedTransaction.id κ) := by
  have hswap : CollisionFree κ (rootStrings κ us ++ rootStrings κ ts) :=
    hfree.mono (List.append_subset.mpr
      ⟨List.subset_append_right _ _, List.subset_append_left _ _⟩)
  by_cases hnil : ts = []
  · rw [hnil, eq_nil_of_transactionRoot_eq hfree hnil h]
  by_cases hnil' : us = []
  · exact absurd (eq_nil_of_transactionRoot_eq hswap hnil' h.symm) hnil
  obtain ⟨hlevel, -⟩ := level_transactionRoot (κ := κ) hnil
  obtain ⟨hlevel', -⟩ := level_transactionRoot (κ := κ) hnil'
  rw [← h] at hlevel'
  have hstring : ∀ p ∈ Merkle.combined (hashNode κ) (ts.map fun t => hashLeaf κ (t.id κ))
      ∪ Merkle.combined (hashNode κ) (us.map fun t => hashLeaf κ (t.id κ)),
      nodeString p ∈ rootStrings κ ts ++ rootStrings κ us := by
    rintro p (hp | hp)
    · exact List.mem_append_left _ (nodeString_mem_rootStrings hnil hp)
    · exact List.mem_append_right _ (nodeString_mem_rootStrings hnil' hp)
  have hinj : Set.InjOn (fun p : Hash256 × Hash256 => hashNode κ p.1 p.2)
      (Merkle.combined (hashNode κ) (ts.map fun t => hashLeaf κ (t.id κ))
        ∪ Merkle.combined (hashNode κ) (us.map fun t => hashLeaf κ (t.id κ))) :=
    fun p hp q hq heq => nodeString_inj (hfree _ (hstring p hp) _ (hstring q hq) heq)
  have hleaves : (ts.map fun t => hashLeaf κ (t.id κ)) = us.map fun t => hashLeaf κ (t.id κ) := by
    rcases Merkle.level_or_level hlevel hlevel' (nodup_leaves hfree hts) (nodup_leaves hswap hus)
      hinj with hup | hup
    · exact (leaves_eq_of_level hswap hnil' hnil hup).symm
    · exact leaves_eq_of_level hfree hnil hnil' hup
  have hids : (ts.map (SignedTransaction.id κ)).map (hashLeaf κ)
      = (us.map (SignedTransaction.id κ)).map (hashLeaf κ) := by
    rw [List.map_map, List.map_map]
    exact hleaves
  refine Merkle.eq_of_map_eq ?_ hids
  intro x hx y hy heq
  obtain ⟨t, ht, rfl⟩ := List.mem_map.mp hx
  obtain ⟨u, hu, rfl⟩ := List.mem_map.mp hy
  exact leafString_inj (hfree _ (List.mem_append_left _ (leafString_mem_rootStrings ht)) _
    (List.mem_append_right _ (leafString_mem_rootStrings hu)) heq)

/-- An odd level repeats its last entry, so a list and the same list with its last
transaction repeated have one root. -/
theorem transactionRoot_repeated (κ : Crypto) (t u v : SignedTransaction) :
    calculateTransactionRoot κ [t, u, v] = calculateTransactionRoot κ [t, u, v, v] := by
  simp [calculateTransactionRoot, merkleLoop, merkleStep, hashPairs]

/-- The root binds the length of a list without duplicate ids and its ids in their
order, short of a collision among the strings hashed for the two roots.  Without the
check for duplicates it does not. -/
theorem transactionRoot_binds (κ : Crypto) :
    (∀ ts us : List SignedTransaction, (ts.map (SignedTransaction.id κ)).Nodup →
      (us.map (SignedTransaction.id κ)).Nodup →
      CollisionFree κ (rootStrings κ ts ++ rootStrings κ us) →
      calculateTransactionRoot κ ts = calculateTransactionRoot κ us →
        ts.length = us.length ∧
          ts.map (SignedTransaction.id κ) = us.map (SignedTransaction.id κ)) ∧
    ∀ t u v : SignedTransaction,
      calculateTransactionRoot κ [t, u, v] = calculateTransactionRoot κ [t, u, v, v] := by
  refine ⟨?_, transactionRoot_repeated κ⟩
  intro ts us hts hus hfree h
  have hids := ids_eq_of_transactionRoot_eq hfree hts hus h
  refine ⟨?_, hids⟩
  have hlength := congrArg List.length hids
  rw [List.length_map, List.length_map] at hlength
  exact hlength

theorem samplePayment_validated (accountNonce : UInt64) :
    validateFields ⟨⟨List.Vector.replicate 32 9⟩, 5, 1, accountNonce, 2⟩ = .none := by
  have hchain : SupportedChain 2 := by decide
  have hamount : ¬ (5 : UInt64) = 0 := by decide
  have hfee : ¬ (1 : UInt64) > maxU64 - 5 := by decide +kernel
  rw [validateFields, if_neg (not_not.mpr hchain), if_neg hamount, if_neg hfee]

/-- Payments of one account on the regression-test network, signed. -/
def samplePaymentAt (accountNonce : UInt64) : SignedTransaction where
  chainId := 2
  senderPublicKey := List.Vector.replicate 32 7
  recipient := ⟨List.Vector.replicate 32 9⟩
  amount := 5
  fee := 1
  accountNonce := accountNonce
  signature := referenceTag (serializeUnsigned 2 (List.Vector.replicate 32 7)
    ⟨List.Vector.replicate 32 9⟩ 5 1 accountNonce) (List.Vector.replicate 32 7)
  validated := samplePayment_validated accountNonce

def samplePayment : SignedTransaction := samplePaymentAt 0

/-- An odd level: the last leaf is paired with itself. -/
def samplePayments : List SignedTransaction := [samplePayment, samplePaymentAt 1, samplePaymentAt 2]

theorem samplePayments_bounded : samplePayments.length ≤ maximumTransactionsPerBlock := by decide

/-- A block of the three payments. -/
def sampleBlock : Block where
  chainId := 2
  height := 1
  previousBlockHash := (genesisBlock reference 2).id reference
  transactionRoot := calculateTransactionRoot reference samplePayments
  rewardRecipient := some ⟨List.Vector.replicate 32 9⟩
  timestamp := 1
  difficultyTarget := List.Vector.replicate 32 255
  miningNonce := 0
  transactions := samplePayments
  bounded := samplePayments_bounded

-- one evaluation: the digests of the header, the three payments, three leaves and three nodes
theorem sampleBlock_digests :
    (sampleBlock.hashedStrings reference).length = 10 ∧
      ((sampleBlock.hashedStrings reference).map reference.sha256).Nodup := by
  decide +kernel

theorem sampleBlock_collisionFree : CollisionFree reference (sampleBlock.hashedStrings reference) :=
  collisionFree_of_nodup sampleBlock_digests.2

theorem samplePayments_nodup : (samplePayments.map (SignedTransaction.id reference)).Nodup := by
  have hsublist : (samplePayments.map SignedTransaction.serialize).Sublist
      (sampleBlock.hashedStrings reference) :=
    (List.sublist_append_right _ _).cons _
  have hdigests := sampleBlock_digests.2.sublist (hsublist.map reference.sha256)
  rw [List.map_map] at hdigests
  exact hdigests

theorem transactionRoot_binds_payment :
    CollisionFree reference
        (rootStrings reference samplePayments ++ rootStrings reference samplePayments) ∧
      samplePayments.length = samplePayments.length ∧
      samplePayments.map (SignedTransaction.id reference)
        = samplePayments.map (SignedTransaction.id reference) := by
  have hstrings : rootStrings reference samplePayments ⊆ sampleBlock.hashedStrings reference :=
    fun x hx => List.mem_cons_of_mem _ (List.mem_append_left _ hx)
  have hfree : CollisionFree reference
      (rootStrings reference samplePayments ++ rootStrings reference samplePayments) :=
    sampleBlock_collisionFree.mono (List.append_subset.mpr ⟨hstrings, hstrings⟩)
  exact ⟨hfree, (transactionRoot_binds reference).1 samplePayments samplePayments
    samplePayments_nodup samplePayments_nodup hfree rfl⟩

/-! ## The transaction and the header -/

theorem SignedTransaction.serialize_inj {t u : SignedTransaction}
    (h : t.serialize = u.serialize) : t = u := by
  obtain ⟨hbytes, hsignature⟩ := List.append_inj h (by simp)
  obtain ⟨-, h⟩ := List.append_inj hbytes rfl
  obtain ⟨hchain, h⟩ := List.append_inj (List.cons.inj h).2 (by simp)
  obtain ⟨hkey, h⟩ := List.append_inj h (by simp)
  obtain ⟨hrecipient, h⟩ := List.append_inj h (by simp)
  obtain ⟨hamount, h⟩ := List.append_inj h (by simp)
  obtain ⟨hfee, hnonce⟩ := List.append_inj h (by simp)
  cases t
  cases u
  rw [SignedTransaction.mk.injEq]
  exact ⟨encodeU32Le_inj hchain, List.Vector.toList_injective hkey,
    congrArg Address.mk (List.Vector.toList_injective hrecipient), encodeU64Le_inj hamount,
    encodeU64Le_inj hfee, encodeU64Le_inj hnonce, List.Vector.toList_injective hsignature⟩

namespace Block

/-- What two blocks with one header have in common. -/
structure SameHeader (a b : Block) : Prop where
  chainId : a.chainId = b.chainId
  height : a.height = b.height
  previousBlockHash : a.previousBlockHash = b.previousBlockHash
  transactionRoot : a.transactionRoot = b.transactionRoot
  reward : a.rewardBytes = b.rewardBytes
  timestamp : a.timestamp = b.timestamp
  difficultyTarget : a.difficultyTarget = b.difficultyTarget
  miningNonce : a.miningNonce = b.miningNonce

theorem serializeHeader_layout (b : Block) :
    b.serializeHeader = blockMagic ++ ([blockVersion] ++ (encodeU32Le b.chainId ++
      (encodeU64Le b.height ++ (b.previousBlockHash.toList ++ (b.transactionRoot.toList ++
        (b.rewardBytes.toList ++ (encodeU64Le b.timestamp ++ (b.difficultyTarget.toList ++
          (encodeU64Le b.miningNonce ++
            encodeU32Le (UInt32.ofNat b.transactions.length)))))))))) := by
  cases h : b.rewardRecipient <;> simp [serializeHeader, rewardBytes, h]

theorem sameHeader_of_serializeHeader {a b : Block} (h : a.serializeHeader = b.serializeHeader) :
    SameHeader a b := by
  rw [serializeHeader_layout, serializeHeader_layout] at h
  obtain ⟨-, h⟩ := List.append_inj h rfl
  obtain ⟨-, h⟩ := List.append_inj h rfl
  obtain ⟨hchain, h⟩ := List.append_inj h (by simp)
  obtain ⟨hheight, h⟩ := List.append_inj h (by simp)
  obtain ⟨hprevious, h⟩ := List.append_inj h (by simp)
  obtain ⟨hroot, h⟩ := List.append_inj h (by simp)
  obtain ⟨hreward, h⟩ := List.append_inj h (by simp)
  obtain ⟨htimestamp, h⟩ := List.append_inj h (by simp)
  obtain ⟨htarget, h⟩ := List.append_inj h (by simp)
  obtain ⟨hnonce, -⟩ := List.append_inj h (by simp)
  exact {
    chainId := encodeU32Le_inj hchain
    height := encodeU64Le_inj hheight
    previousBlockHash := List.Vector.toList_injective hprevious
    transactionRoot := List.Vector.toList_injective hroot
    reward := List.Vector.toList_injective hreward
    timestamp := encodeU64Le_inj htimestamp
    difficultyTarget := List.Vector.toList_injective htarget
    miningNonce := encodeU64Le_inj hnonce }

/-! ## Every block the program makes carries its own root -/

/-- The part of `WellFormed` that needs no signature to verify. -/
structure Committed (κ : Crypto) (b : Block) : Prop where
  distinct : (b.transactions.map (SignedTransaction.id κ)).Nodup
  root : b.transactionRoot = calculateTransactionRoot κ b.transactions
  shape : b = genesisBlock κ b.chainId ∨
    (b.height ≠ 0 ∧ ∃ recipient, b.rewardRecipient = some recipient)

end Block

theorem nodup_of_validateTransactionsFrom {chainId : UInt32} (ts : List SignedTransaction) :
    ∀ {seen : List Hash256}, validateTransactionsFrom κ chainId seen ts = .none →
      (ts.map (SignedTransaction.id κ)).Nodup ∧ ∀ t ∈ ts, t.id κ ∉ seen := by
  induction ts with
  | nil => intro seen _; exact ⟨List.nodup_nil, fun _ ht => absurd ht List.not_mem_nil⟩
  | cons t ts ih =>
      intro seen h
      rw [validateTransactionsFrom] at h
      split_ifs at h with hchain hseen
      obtain ⟨hnodup, hfresh⟩ := ih h
      refine ⟨?_, ?_⟩
      · rw [List.map_cons, List.nodup_cons]
        refine ⟨?_, hnodup⟩
        intro hmem
        obtain ⟨u, hu, heq⟩ := List.mem_map.mp hmem
        exact hfresh u hu (List.mem_append_right _ (List.mem_singleton.mpr heq))
      · intro u hu
        rcases List.mem_cons.mp hu with rfl | hu
        · exact hseen
        · exact fun hmem => hfresh u hu (List.mem_append_left _ hmem)

theorem nodup_of_validateTransactions {chainId : UInt32} {ts : List SignedTransaction}
    (h : validateTransactions κ ts chainId = .none) :
    (ts.map (SignedTransaction.id κ)).Nodup := by
  unfold validateTransactions at h
  split at h
  · cases h
  · exact (nodup_of_validateTransactionsFrom ts h).1

namespace Block

theorem committed_genesis (κ : Crypto) (chainId : UInt32) :
    (genesisBlock κ chainId).Committed κ :=
  ⟨List.nodup_nil, rfl, Or.inl rfl⟩

theorem WellFormed.committed {b : Block} (h : b.WellFormed κ) : b.Committed κ where
  distinct := nodup_of_validateTransactions h.validated
  root := h.root
  shape := by
    rcases h.shape with hg | ⟨hheight, -, recipient, hreward, -⟩
    · exact Or.inl hg
    · exact Or.inr ⟨hheight, recipient, hreward⟩

theorem Obtainable.committed {b : Block} (h : b.Obtainable κ) : b.Committed κ := by
  induction h with
  | genesis _ => exact committed_genesis κ _
  | created _ hc =>
      obtain ⟨hbody, -, hheight, -, -, rfl⟩ := createBlock_ok hc
      exact ⟨nodup_of_validateTransactions hbody, rfl, Or.inr ⟨hheight, _, rfl⟩⟩
  | deserialized hd => exact (wellFormed_of_deserializeBlock hd).committed
  | @nonce b miningNonce _ ih =>
      unfold Block.withMiningNonce
      split
      · exact ih
      · rename_i hgenesis
        refine ⟨ih.distinct, ih.root, ?_⟩
        rcases ih.shape with hg | hs
        · rw [hg] at hgenesis
          exact absurd rfl hgenesis
        · exact Or.inr hs

/-- With one header the recipients agree too: only Genesis has none. -/
theorem SameHeader.rewardRecipient {a b : Block} (h : SameHeader a b) (ha : a.Committed κ)
    (hb : b.Committed κ) : a.rewardRecipient = b.rewardRecipient := by
  have hgenesis : ∀ chainId, (genesisBlock κ chainId).height = 0 := fun _ => rfl
  rcases ha.shape with hga | ⟨hna, ra, hra⟩ <;> rcases hb.shape with hgb | ⟨hnb, rb, hrb⟩
  · rw [hga, hgb]
    rfl
  · rw [← h.height, hga] at hnb
    exact absurd (hgenesis _) hnb
  · rw [h.height, hgb] at hna
    exact absurd (hgenesis _) hna
  · have hreward := h.reward
    rw [rewardBytes, rewardBytes, hra, hrb] at hreward
    rw [hra, hrb]
    exact congrArg (fun x => some (Address.mk x)) hreward

/-- Two blocks of the program with one id are one block, short of a collision among
the strings hashed for the two. -/
theorem eq_of_id_eq (κ : Crypto) (a b : Block)
    (ha : a.Obtainable κ ∨ ∃ chainId, a = genesisBlock κ chainId)
    (hb : b.Obtainable κ ∨ ∃ chainId, b = genesisBlock κ chainId)
    (hid : a.id κ = b.id κ)
    (hfree : CollisionFree κ (a.hashedStrings κ ++ b.hashedStrings κ)) : a = b := by
  have hcommitted : ∀ {c : Block}, (c.Obtainable κ ∨ ∃ chainId, c = genesisBlock κ chainId) →
      c.Committed κ := by
    rintro c (hc | ⟨chainId, rfl⟩)
    · exact hc.committed
    · exact committed_genesis κ chainId
  have hca := hcommitted ha
  have hcb := hcommitted hb
  have hheader : a.serializeHeader = b.serializeHeader :=
    hfree _ (List.mem_append_left _ List.mem_cons_self) _
      (List.mem_append_right _ List.mem_cons_self) hid
  have hsame := sameHeader_of_serializeHeader hheader
  have hroots : calculateTransactionRoot κ a.transactions
      = calculateTransactionRoot κ b.transactions := by
    rw [← hca.root, ← hcb.root, hsame.transactionRoot]
  have hsubset : ∀ c : Block, rootStrings κ c.transactions ⊆ c.hashedStrings κ :=
    fun c x hx => List.mem_cons_of_mem _ (List.mem_append_left _ hx)
  have hids := ids_eq_of_transactionRoot_eq
    (hfree.mono (List.append_subset.mpr
      ⟨List.subset_append_of_subset_left _ (hsubset a),
        List.subset_append_of_subset_right _ (hsubset b)⟩))
    hca.distinct hcb.distinct hroots
  have htransactions : a.transactions = b.transactions := by
    refine Merkle.eq_of_map_eq ?_ hids
    intro t ht u hu heq
    refine SignedTransaction.serialize_inj (hfree _ ?_ _ ?_ heq)
    · exact List.mem_append_left _ (List.mem_cons_of_mem _
        (List.mem_append_right _ (List.mem_map_of_mem ht)))
    · exact List.mem_append_right _ (List.mem_cons_of_mem _
        (List.mem_append_right _ (List.mem_map_of_mem hu)))
  have hreward := hsame.rewardRecipient hca hcb
  cases a
  cases b
  rw [Block.mk.injEq]
  exact ⟨hsame.chainId, hsame.height, hsame.previousBlockHash, hsame.transactionRoot, hreward,
    hsame.timestamp, hsame.difficultyTarget, hsame.miningNonce, htransactions⟩

/-- What the block of three payments is created from. -/
def sampleFields : BlockFields where
  chainId := 2
  height := 1
  previousBlockHash := (genesisBlock reference 2).id reference
  rewardRecipient := ⟨List.Vector.replicate 32 9⟩
  timestamp := 1
  difficultyTarget := List.Vector.replicate 32 255
  miningNonce := 0
  transactions := samplePayments

theorem eq_of_mem_samplePayments {t : SignedTransaction} (ht : t ∈ samplePayments) :
    ∃ accountNonce, t = samplePaymentAt accountNonce := by
  rcases List.mem_cons.mp ht with rfl | ht
  · exact ⟨0, rfl⟩
  rcases List.mem_pair.mp ht with rfl | rfl
  · exact ⟨1, rfl⟩
  · exact ⟨2, rfl⟩

theorem validate_samplePayments : validateTransactions reference samplePayments 2 = .none := by
  refine validateTransactions_of_nodup samplePayments_bounded ?_ samplePayments_nodup
  intro t ht
  obtain ⟨accountNonce, rfl⟩ := eq_of_mem_samplePayments ht
  rfl

theorem verified_of_tag {t : SignedTransaction}
    (h : t.signature = referenceTag t.signingBytes t.senderPublicKey) : t.Verified reference :=
  decide_eq_true h

theorem samplePayments_verified : ∀ t ∈ samplePayments, t.Verified reference := by
  intro t ht
  obtain ⟨accountNonce, rfl⟩ := eq_of_mem_samplePayments ht
  refine verified_of_tag ?_
  simp only [samplePaymentAt, SignedTransaction.signingBytes]

theorem createBlock_sampleFields : createBlock reference sampleFields = .ok sampleBlock := by
  have hprevious : ¬ sampleFields.previousBlockHash.isZero := by decide +kernel
  have hvalid : validateTransactions reference sampleFields.transactions sampleFields.chainId
      = .none := validate_samplePayments
  rw [createBlock, if_neg (by decide), if_neg (by decide), if_neg hprevious, if_neg (by decide),
    dif_pos hvalid]
  rfl

/-- The block that `createBlock` makes and the one that is read from its bytes. -/
theorem eq_of_id_eq_copy :
    ∃ made copy, createBlock reference sampleFields = .ok made ∧
      deserializeBlock reference made.serialize = .ok copy ∧
      made.transactions.length = 3 ∧ made.id reference = copy.id reference ∧
      CollisionFree reference (made.hashedStrings reference ++ copy.hashedStrings reference) ∧
      made = copy := by
  have hmade := createBlock_sampleFields
  have hread := deserialize_serialize (wellFormed_of_createBlock samplePayments_verified hmade)
  have hsigned : ∀ t ∈ sampleFields.transactions, t.Obtainable reference := fun t ht =>
    .deserialized (t.deserialize_serialize reference (samplePayments_verified t ht))
  have hfree : CollisionFree reference
      (sampleBlock.hashedStrings reference ++ sampleBlock.hashedStrings reference) :=
    sampleBlock_collisionFree.mono (List.append_subset.mpr ⟨fun _ h => h, fun _ h => h⟩)
  exact ⟨sampleBlock, sampleBlock, hmade, hread, rfl, rfl, hfree,
    eq_of_id_eq reference sampleBlock sampleBlock (Or.inl (.created hsigned hmade))
      (Or.inl (.deserialized hread)) rfl hfree⟩

end Block

end BBC
