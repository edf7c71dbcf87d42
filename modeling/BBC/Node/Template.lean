/-
# `BBC.Node.Template` — the candidate a node builds on its own tip

`start_mining` and `handle_template_request` of `src/node/control_server.cpp`
fill the same `BlockFields` from the tip.  The timestamp is the tip's plus one in
`uint64` arithmetic, and `append` wants a strictly greater one, so the candidate
is appendable exactly when that addition does not wrap
(`template_appendable_iff`).
-/
import BBC.Chain.ArrivalOrder

namespace BBC

/-- The fields of a template on `tip`. -/
def templateFields (κ : Crypto) (tip : Block) (reward : Address)
    (transactions : List SignedTransaction) : BlockFields where
  height := tip.height + 1
  previousBlockHash := tip.id κ
  rewardRecipient := reward
  timestamp := tip.timestamp + 1
  difficultyTarget := fixedDifficultyTarget tip.chainId
  miningNonce := 0
  transactions := transactions
  chainId := tip.chainId

/-- The template itself; `create_block` may refuse the fields. -/
def createTemplate (κ : Crypto) (tip : Block) (reward : Address)
    (transactions : List SignedTransaction) : Except BlockError Block :=
  createBlock κ (templateFields κ tip reward transactions)

variable {κ : Crypto}

/-- A block that `create_block` built carries its fields. -/
structure Built (fields : BlockFields) (b : Block) : Prop where
  height_ne : b.height ≠ 0
  height : b.height = fields.height
  chainId : b.chainId = fields.chainId
  previousBlockHash : b.previousBlockHash = fields.previousBlockHash
  timestamp : b.timestamp = fields.timestamp

theorem built_of_createBlock {fields : BlockFields} {b : Block}
    (h : createBlock κ fields = .ok b) : Built fields b := by
  obtain ⟨-, -, hheight, -, -, rfl⟩ := Block.createBlock_ok h
  exact ⟨hheight, rfl, rfl, rfl, rfl⟩

theorem Built.withMiningNonce {fields : BlockFields} {b : Block} (h : Built fields b)
    (nonce : UInt64) : Built fields (b.withMiningNonce nonce) := by
  unfold Block.withMiningNonce
  split
  · exact h
  · exact ⟨h.height_ne, h.height, h.chainId, h.previousBlockHash, h.timestamp⟩

/-- The nonce is no input of the transition. -/
theorem applyBlockState_withMiningNonce (state : ChainState) (b : Block) (nonce : UInt64) :
    applyBlockState κ state (b.withMiningNonce nonce) = applyBlockState κ state b := by
  unfold Block.withMiningNonce
  split
  · rfl
  · rw [applyBlockState_eq, applyBlockState_eq]
    rfl

/-- Headers of different heights are different strings. -/
theorem height_eq_of_serializeHeader {a b : Block} (h : a.serializeHeader = b.serializeHeader) :
    a.height = b.height := by
  have hread : ∀ c : Block, readU64Le c.serializeHeader 9 = c.height := by
    intro c
    have hdrop : c.serializeHeader.drop 9 =
        encodeU64Le c.height ++ (c.serializeHeader.drop 17) := by
      simp [Block.serializeHeader, blockMagic, encodeU32Le, encodeU64Le, ByteCodec.leBytes]
    exact readU64Le_of_drop hdrop
  rw [← hread a, ← hread b, h]

/-! ## When the candidate is appendable -/

section
variable {chainId : UInt32} {c : Blockchain} (hc : c.Inv κ chainId) {b : Block} {reward : Address}
  {body : List SignedTransaction} (hb : Built (templateFields κ c.tip reward body) b)

include hb

theorem Built.tip_height_ne : c.tip.height ≠ maxU64 := by
  intro hmax
  have hheight : b.height = c.tip.height + 1 := hb.height
  refine hb.height_ne ?_
  rw [hheight, hmax]
  unfold maxU64
  rfl

theorem Built.height_toNat : b.height.toNat = c.tip.height.toNat + 1 := by
  have hheight : b.height = c.tip.height + 1 := hb.height
  rw [hheight]
  exact toNat_add_of_lt (b := 1) (toNat_lt_of_ne_max hb.tip_height_ne)

include hc

/-- Short of a collision the candidate is not stored yet: it is higher than
everything that is. -/
theorem Built.fresh
    (hcollision : ∀ q ∈ c.storedBlocks,
      κ.sha256 q.serializeHeader = κ.sha256 b.serializeHeader →
        q.serializeHeader = b.serializeHeader) :
    c.indexById[b.id κ]? = none := by
  cases hi : c.indexById[b.id κ]? with
  | none => rfl
  | some i =>
      obtain ⟨hlt, hid⟩ := (hc.index _ _).mp hi
      have hmem : c.block i ∈ c.storedBlocks := by
        rw [Blockchain.block, List.getD_eq_getElem _ _ hlt]
        exact List.getElem_mem hlt
      have heq := height_eq_of_serializeHeader (hcollision _ hmem hid)
      have hle := hc.height_le_tip hlt
      have hheight := hb.height_toNat
      rw [heq] at hle
      omega

theorem Built.accepts {next : ChainState}
    (hcollision : ∀ q ∈ c.storedBlocks,
      κ.sha256 q.serializeHeader = κ.sha256 b.serializeHeader →
        q.serializeHeader = b.serializeHeader)
    (hbody : applyBlockState κ c.state b = .ok next) (hpow : validateProofOfWork κ b = .none)
    (htime : c.tip.timestamp ≠ maxU64) : c.Accepts κ b c.tipIndex next where
  notGenesis := (applyBlockState_ok_iff.mp hbody).1
  chainId := hb.chainId
  fresh := hb.fresh hc hcollision
  parent := (hc.index _ _).mpr ⟨hc.tipIndex_lt,
    by rw [← hc.tip_eq]; exact hb.previousBlockHash.symm⟩
  heightRoom := by
    rw [← hc.tip_eq]
    exact hb.tip_height_ne
  height := by
    rw [← hc.tip_eq]
    exact hb.height
  timestamp := by
    have htimestamp : b.timestamp = c.tip.timestamp + 1 := hb.timestamp
    have hsucc := toNat_add_of_lt (b := 1) (toNat_lt_of_ne_max htime)
    rw [← hc.tip_eq, htimestamp, UInt64.lt_iff_toNat_lt, hsucc]
    exact Nat.lt_succ_self _
  proofOfWork := hpow
  transition := by
    rw [← hc.state]
    exact hbody

/-- After the largest timestamp the next one is zero, and `append` refuses it. -/
theorem Built.not_accepts (htime : c.tip.timestamp = maxU64) :
    (c.append κ b).2.error ≠ .none := by
  intro hnone
  obtain ⟨p, next, ha⟩ := Blockchain.append_error_none_iff.mp hnone
  have hp : p = c.tipIndex := by
    obtain ⟨hlt, hid⟩ := hc.parent_of_accepts ha
    have hprev : b.previousBlockHash = c.tip.id κ := hb.previousBlockHash
    refine hc.id_inj hlt hc.tipIndex_lt ?_
    rw [hid, hprev, hc.tip_eq]
  have hlt := ha.timestamp
  have htimestamp : b.timestamp = c.tip.timestamp + 1 := hb.timestamp
  rw [hp, ← hc.tip_eq, htimestamp, htime] at hlt
  unfold maxU64 at hlt
  exact absurd hlt (by decide)

end

/-- A template on the tip of a reachable chain, solved with any nonce, is accepted
and becomes the tip if and only if the tip's timestamp is not the largest
`uint64`. -/
theorem template_appendable_iff (κ : Crypto) (chainId : UInt32) (bs : List Block)
    (reward : Address) (body : List SignedTransaction) (candidate : Block) (nonce : UInt64)
    (next : ChainState)
    (hcandidate : createTemplate κ (Blockchain.replay κ chainId bs).tip reward body
      = .ok candidate)
    (hbody : applyBlockState κ (Blockchain.replay κ chainId bs).state candidate = .ok next)
    (hpow : validateProofOfWork κ (candidate.withMiningNonce nonce) = .none)
    (hcollision : ∀ q ∈ (Blockchain.replay κ chainId bs).storedBlocks,
      κ.sha256 q.serializeHeader = κ.sha256 (candidate.withMiningNonce nonce).serializeHeader →
        q.serializeHeader = (candidate.withMiningNonce nonce).serializeHeader) :
    let c := Blockchain.replay κ chainId bs
    let solved := candidate.withMiningNonce nonce
    ((c.append κ solved).2.error = .none ∧ (c.append κ solved).1.tip = solved) ↔
      c.tip.timestamp ≠ maxU64 := by
  intro c solved
  have hc : c.Inv κ chainId := Blockchain.inv_replay κ chainId bs
  have hb : Built (templateFields κ c.tip reward body) solved :=
    (built_of_createBlock hcandidate).withMiningNonce nonce
  constructor
  · rintro ⟨hnone, -⟩ htime
    exact hb.not_accepts hc htime hnone
  · intro htime
    have hstate : applyBlockState κ c.state solved = .ok next := by
      rw [applyBlockState_withMiningNonce]
      exact hbody
    have ha := hb.accepts hc hcollision hstate hpow htime
    refine ⟨Blockchain.append_error_none_iff.mpr ⟨_, _, ha⟩, hc.tip_of_lt ha ?_⟩
    rw [UInt64.lt_iff_toNat_lt, hb.height_toNat]
    exact Nat.lt_succ_self _

/-- Above Genesis the condition holds, and the nonce of the first mined block solves
the template. -/
theorem template_appendable_iff_genesis :
    let c := Blockchain.replay reference 2 []
    let solved := (regtestBlock (genesisBlock reference 2) 1 0).withMiningNonce 899
    ((c.append reference solved).2.error = .none ∧ (c.append reference solved).1.tip = solved) ↔
      c.tip.timestamp ≠ maxU64 :=
  template_appendable_iff reference 2 [] (Address.fromPublicKey reference minerKey) []
    (regtestBlock (genesisBlock reference 2) 1 0) 899
    ⟨(∅ : Accounts).insert (Address.fromPublicKey reference minerKey).hash ⟨blockSubsidy, 0⟩⟩
    (by decide +kernel) (by decide +kernel) (by decide +kernel) (by decide +kernel)

/-- A block with the largest timestamp, as any peer may send it. -/
def minedLate : Block := regtestBlock (genesisBlock reference 2) maxU64 434

/-- On top of it the node's own template, solved, is refused. -/
theorem template_refused_after_minedLate :
    let c := Blockchain.replay reference 2 [minedLate]
    let candidate := regtestBlock minedLate 0 0
    c.tip = minedLate ∧
    createTemplate reference c.tip (Address.fromPublicKey reference minerKey) [] = .ok candidate ∧
    (applyBlockState reference c.state candidate).toOption.isSome = true ∧
    validateProofOfWork reference (candidate.withMiningNonce 660) = .none ∧
    (c.append reference (candidate.withMiningNonce 660)).2.error = .timestampNotIncreasing ∧
    (c.append reference (candidate.withMiningNonce 660)).1.tip = minedLate := by
  decide +kernel

end BBC
