/-
# `BBC.Chain.BlockTree` — the representation invariant of `Blockchain`

`Tree` speaks of the blocks, the nodes and the id index; `Active` of the four
fields that describe the active branch.  Together they are `Inv`, which holds of
the constructor, is kept by one `append` and so by any run of them
(`inv_replay`).

What one `append` can do is said once, in `append_cases`: a rejection returns the
chain as it was; an acceptance has passed every check (`Accepts`) and is a `store`
followed by the fork choice.
-/
import BBC.Chain.Blockchain
import Mathlib.Data.List.GetD

namespace BBC

namespace Blockchain

open ParentTree

variable {κ : Crypto} {chainId : UInt32} {c : Blockchain}

/-! ## What one `append` does -/

/-- All the checks of `append`, passed: `b` extends the block at `p` and moves
its state to `next`. -/
structure Accepts (κ : Crypto) (c : Blockchain) (b : Block) (p : Nat) (next : ChainState) :
    Prop where
  notGenesis : b.isGenesis = false
  chainId : b.chainId = c.tip.chainId
  fresh : c.indexById[b.id κ]? = none
  parent : c.indexById[b.previousBlockHash]? = some p
  heightRoom : (c.block p).height ≠ maxU64
  height : b.height = (c.block p).height + 1
  timestamp : (c.block p).timestamp < b.timestamp
  proofOfWork : validateProofOfWork κ b = .none
  transition : applyBlockState κ (c.node p).state b = .ok next

theorem contains_eq_false {m : Std.ExtTreeMap Hash256 Nat} {k : Hash256} :
    m.contains k = false ↔ m[k]? = none := by
  rw [← Std.ExtTreeMap.isSome_getElem?_eq_contains, Option.isSome_eq_false_iff,
    Option.isNone_iff_eq_none]

theorem checkHeader_none_iff {q b : Block} :
    checkHeader κ q b = .none ↔ q.height ≠ maxU64 ∧ b.height = q.height + 1 ∧
      q.timestamp < b.timestamp ∧ validateProofOfWork κ b = .none := by
  unfold checkHeader
  constructor
  · intro h
    split_ifs at h with hroom hheight htime hpow
    exact ⟨hroom, not_not.mp hheight, UInt64.not_le.mp htime, not_not.mp hpow⟩
  · rintro ⟨hroom, hheight, htime, hpow⟩
    rw [if_neg hroom, if_neg (not_not.mpr hheight), if_neg (UInt64.not_le.mpr htime),
      if_neg (not_not.mpr hpow)]

theorem findParent_ok_iff {b : Block} {p : Nat} :
    c.findParent κ b = .ok p ↔
      b.isGenesis = false ∧ b.chainId = c.tip.chainId ∧ c.indexById[b.id κ]? = none ∧
        c.indexById[b.previousBlockHash]? = some p ∧ checkHeader κ (c.block p) b = .none := by
  unfold findParent
  constructor
  · intro h
    by_cases hg : b.isGenesis = true
    · rw [if_pos hg] at h
      cases h
    by_cases hchain : b.chainId = c.tip.chainId
    · by_cases hdup : c.indexById.contains (b.id κ) = true
      · rw [if_neg hg, if_neg (not_not.mpr hchain), if_pos hdup] at h
        cases h
      rw [if_neg hg, if_neg (not_not.mpr hchain), if_neg hdup] at h
      refine ⟨Bool.not_eq_true _ ▸ hg, hchain, contains_eq_false.mp (Bool.not_eq_true _ ▸ hdup), ?_⟩
      cases hq : c.indexById[b.previousBlockHash]? with
      | none => rw [hq] at h; cases h
      | some q =>
          rw [hq] at h
          dsimp only at h
          split_ifs at h with hheader
          cases h
          exact ⟨rfl, hheader⟩
    · rw [if_neg hg, if_pos hchain] at h
      cases h
  · rintro ⟨hg, hchain, hdup, hq, hheader⟩
    rw [if_neg (by rw [hg]; exact Bool.false_ne_true), if_neg (not_not.mpr hchain),
      if_neg (by rw [contains_eq_false.mpr hdup]; exact Bool.false_ne_true), hq]
    exact if_pos hheader

theorem findParent_error_ne {b : Block} {e : ChainError} (h : c.findParent κ b = .error e) :
    e ≠ .none := by
  unfold findParent at h
  rintro rfl
  split at h
  · cases h
  split at h
  · cases h
  split at h
  · cases h
  split at h
  · cases h
  split at h
  · cases h
  · rename_i hheader
    exact hheader (Except.error.inj h)

theorem Accepts.findParent {b : Block} {p : Nat} {next : ChainState} (h : c.Accepts κ b p next) :
    c.findParent κ b = .ok p :=
  findParent_ok_iff.mpr ⟨h.notGenesis, h.chainId, h.fresh, h.parent,
    checkHeader_none_iff.mpr ⟨h.heightRoom, h.height, h.timestamp, h.proofOfWork⟩⟩

theorem append_of_accepts {b : Block} {p : Nat} {next : ChainState} (h : c.Accepts κ b p next) :
    c.append κ b = (c.store κ b p next).choose c.storedBlocks.length := by
  rw [append, h.findParent]
  dsimp only
  rw [h.transition]

theorem choose_error (c : Blockchain) (i : Nat) : (c.choose i).2.error = .none := by
  unfold choose
  split <;> rfl

@[simp] theorem storedBlocks_choose (c : Blockchain) (i : Nat) :
    (c.choose i).1.storedBlocks = c.storedBlocks := by
  unfold choose
  split <;> rfl

@[simp] theorem indexById_choose (c : Blockchain) (i : Nat) :
    (c.choose i).1.indexById = c.indexById := by
  unfold choose
  split <;> rfl

@[simp] theorem block_choose (c : Blockchain) (i : Nat) : (c.choose i).1.block = c.block := by
  unfold choose
  split <;> rfl

@[simp] theorem node_choose (c : Blockchain) (i : Nat) : (c.choose i).1.node = c.node := by
  unfold choose
  split <;> rfl

/-- The whole of `append`: a rejection that changes nothing, or an acceptance. -/
theorem append_cases (κ : Crypto) (c : Blockchain) (b : Block) :
    ((c.append κ b).1 = c ∧ (c.append κ b).2.error ≠ .none) ∨
      ∃ p next, c.Accepts κ b p next ∧
        c.append κ b = (c.store κ b p next).choose c.storedBlocks.length := by
  cases hp : c.findParent κ b with
  | error e =>
      left
      rw [append, hp]
      exact ⟨rfl, findParent_error_ne hp⟩
  | ok p =>
      cases ht : applyBlockState κ (c.node p).state b with
      | error e =>
          left
          rw [append, hp]
          dsimp only
          rw [ht]
          exact ⟨rfl, ChainError.noConfusion⟩
      | ok next =>
          right
          obtain ⟨hgenesis, hchain, hfresh, hparent, hheader⟩ := findParent_ok_iff.mp hp
          obtain ⟨hroom, hheight, htime, hpow⟩ := checkHeader_none_iff.mp hheader
          have hacc : c.Accepts κ b p next :=
            ⟨hgenesis, hchain, hfresh, hparent, hroom, hheight, htime, hpow, ht⟩
          exact ⟨p, next, hacc, append_of_accepts hacc⟩

theorem append_error_none_iff {b : Block} :
    (c.append κ b).2.error = .none ↔ ∃ p next, c.Accepts κ b p next := by
  constructor
  · intro h
    rcases append_cases κ c b with ⟨-, he⟩ | ⟨p, next, hacc, -⟩
    · exact absurd h he
    · exact ⟨p, next, hacc⟩
  · rintro ⟨p, next, hacc⟩
    rw [append_of_accepts hacc, choose_error]

/-- A rejected `append` leaves every field as it was. -/
theorem append_eq_self_of_error {b : Block} (h : (c.append κ b).2.error ≠ .none) :
    (c.append κ b).1 = c := by
  rcases append_cases κ c b with ⟨hc, -⟩ | ⟨p, next, hacc, -⟩
  · exact hc
  · exact absurd (append_error_none_iff.mpr ⟨p, next, hacc⟩) h

/-! ## Subscripts after a `store` -/

section store
variable (κ) (c) (b : Block) (p : Nat) (next : ChainState)

@[simp] theorem storedBlocks_store :
    (c.store κ b p next).storedBlocks = c.storedBlocks ++ [b] := rfl

@[simp] theorem tipIndex_store : (c.store κ b p next).tipIndex = c.tipIndex := rfl

theorem length_store :
    (c.store κ b p next).storedBlocks.length = c.storedBlocks.length + 1 := by
  simp

variable {i : Nat}

theorem block_store_of_lt (h : i < c.storedBlocks.length) :
    (c.store κ b p next).block i = c.block i := by
  rw [block, storedBlocks_store, List.getD_append _ _ _ _ h]
  rfl

theorem block_store_self : (c.store κ b p next).block c.storedBlocks.length = b := by
  rw [block, storedBlocks_store, List.getD_append_right _ _ _ _ (Nat.le_refl _)]
  simp

theorem node_store_of_lt (h : i < c.nodes.length) :
    (c.store κ b p next).node i = c.node i := by
  rw [node, store, List.getD_append _ _ _ _ h]
  rfl

theorem node_store_self :
    (c.store κ b p next).node c.nodes.length
      = ⟨p, (c.node p).cumulativeWork + 1, next⟩ := by
  rw [node, store, List.getD_append_right _ _ _ _ (Nat.le_refl _)]
  simp

end store

/-! ## The stored tree -/

/-- What holds of the stored block `i` and its parent. -/
structure Edge (κ : Crypto) (chainId : UInt32) (c : Blockchain) (i : Nat) : Prop where
  parent_lt : c.parent i < i
  parentHash : (c.block i).previousBlockHash = (c.block (c.parent i)).id κ
  height : (c.block i).height.toNat = (c.block (c.parent i)).height.toNat + 1
  timestamp : (c.block (c.parent i)).timestamp < (c.block i).timestamp
  proofOfWork : validateProofOfWork κ (c.block i) = .none
  work : (c.node i).cumulativeWork = (c.block i).height
  transition : applyBlockState κ (c.node (c.parent i)).state (c.block i) = .ok (c.node i).state
  chainId : (c.block i).chainId = chainId

/-- The blocks, their nodes and the id index. -/
structure Tree (κ : Crypto) (chainId : UInt32) (c : Blockchain) : Prop where
  lengthNodes : c.nodes.length = c.storedBlocks.length
  nonempty : 0 < c.storedBlocks.length
  rootBlock : c.block 0 = genesisBlock κ chainId
  rootNode : c.node 0 = {}
  edge : ∀ i, 0 < i → i < c.storedBlocks.length → Edge κ chainId c i
  index : ∀ blockId i, c.indexById[blockId]? = some i ↔
    i < c.storedBlocks.length ∧ (c.block i).id κ = blockId

/-- The four fields of the active branch, and the tip's claim to it. -/
structure Active (c : Blockchain) : Prop where
  firstMax : FirstMax (fun i => (c.node i).cumulativeWork.toNat) c.storedBlocks.length c.tipIndex
  activeIndices : c.activeIndices = path c.parent c.tipIndex
  activeFlags : c.activeFlags =
    (List.range c.storedBlocks.length).map fun i => decide (i ∈ c.activeIndices)
  blocks : c.blocks = c.activeIndices.map c.block
  state : c.state = (c.node c.tipIndex).state

/-- The representation invariant. -/
structure Inv (κ : Crypto) (chainId : UInt32) (c : Blockchain) : Prop
  extends Tree κ chainId c, Active c

namespace Tree

variable (h : c.Tree κ chainId)

include h

theorem descends : Descends c.parent c.storedBlocks.length := fun i hpos hi =>
  (h.edge i hpos hi).parent_lt

theorem work {i : Nat} (hi : i < c.storedBlocks.length) :
    (c.node i).cumulativeWork = (c.block i).height := by
  rcases Nat.eq_zero_or_pos i with rfl | hpos
  · rw [h.rootNode, h.rootBlock]
    rfl
  · exact (h.edge i hpos hi).work

theorem chainId_block {i : Nat} (hi : i < c.storedBlocks.length) :
    (c.block i).chainId = chainId := by
  rcases Nat.eq_zero_or_pos i with rfl | hpos
  · rw [h.rootBlock]
    rfl
  · exact (h.edge i hpos hi).chainId

theorem height_root : (c.block 0).height.toNat = 0 := by
  rw [h.rootBlock]
  rfl

theorem length_path {i : Nat} (hi : i < c.storedBlocks.length) :
    (path c.parent i).length = (c.block i).height.toNat + 1 :=
  ParentTree.length_path h.descends (fun i => (c.block i).height.toNat) h.height_root
    (fun i hpos hi => (h.edge i hpos hi).height) i hi

/-- A path meets each of its blocks at the height of that block. -/
theorem getElem?_path_height {i j : Nat} (hi : i < c.storedBlocks.length)
    (hj : j ∈ path c.parent i) : (path c.parent i)[(c.block j).height.toNat]? = some j :=
  getElem?_path h.descends (fun i => (c.block i).height.toNat) h.height_root
    (fun i hpos hi => (h.edge i hpos hi).height) hi hj

/-- Two stored blocks with one id are one stored block. -/
theorem id_inj {i j : Nat} (hi : i < c.storedBlocks.length) (hj : j < c.storedBlocks.length)
    (heq : (c.block i).id κ = (c.block j).id κ) : i = j := by
  have h1 := (h.index ((c.block i).id κ) i).mpr ⟨hi, rfl⟩
  have h2 := (h.index ((c.block i).id κ) j).mpr ⟨hj, heq.symm⟩
  exact Option.some.inj (h1.symm.trans h2)

/-- The parent that the id index finds is a stored block with that id. -/
theorem parent_of_accepts {b : Block} {p : Nat} {next : ChainState} (ha : c.Accepts κ b p next) :
    p < c.storedBlocks.length ∧ (c.block p).id κ = b.previousBlockHash :=
  (h.index _ _).mp ha.parent

theorem index_store {b : Block} {p : Nat} {next : ChainState} (ha : c.Accepts κ b p next)
    (blockId : Hash256) (i : Nat) :
    (c.store κ b p next).indexById[blockId]? = some i ↔
      i < c.storedBlocks.length + 1 ∧ ((c.store κ b p next).block i).id κ = blockId := by
  have hindex : (c.store κ b p next).indexById[blockId]?
      = if b.id κ = blockId then some c.storedBlocks.length else c.indexById[blockId]? :=
    MapSum.getElem?_insertIfNew ha.fresh blockId _
  rw [hindex]
  constructor
  · intro hi
    split at hi
    · rename_i hid
      cases hi
      refine ⟨Nat.lt_succ_self _, ?_⟩
      rw [← hid]
      exact congrArg _ (block_store_self κ c b p next)
    · obtain ⟨hlt, hblock⟩ := (h.index _ _).mp hi
      refine ⟨Nat.lt_succ_of_lt hlt, ?_⟩
      rw [← hblock]
      exact congrArg _ (block_store_of_lt κ c b p next hlt)
  · rintro ⟨hlt, hblock⟩
    rcases Nat.eq_or_lt_of_le (Nat.le_of_lt_succ hlt) with rfl | hlt
    · have hid : b.id κ = blockId := by
        rw [← hblock]
        exact congrArg _ (block_store_self κ c b p next).symm
      rw [if_pos hid]
    · have hold : c.indexById[blockId]? = some i := by
        refine (h.index _ _).mpr ⟨hlt, ?_⟩
        rw [← hblock]
        exact congrArg _ (block_store_of_lt κ c b p next hlt).symm
      rw [if_neg, hold]
      intro hid
      rw [← hid, ha.fresh] at hold
      cases hold

/-- The edges that were there are still there. -/
theorem edge_store_of_lt (b : Block) (p : Nat) (next : ChainState) {i : Nat} (hpos : 0 < i)
    (hi : i < c.storedBlocks.length) : Edge κ chainId (c.store κ b p next) i := by
  have e := h.edge i hpos hi
  have hnode : (c.store κ b p next).node i = c.node i :=
    node_store_of_lt κ c b p next (by rw [h.lengthNodes]; exact hi)
  have hparent : (c.store κ b p next).parent i = c.parent i := congrArg _ hnode
  have hlt := e.parent_lt
  have hup : (c.store κ b p next).block (c.parent i) = c.block (c.parent i) :=
    block_store_of_lt κ c b p next (by omega)
  have hupNode : (c.store κ b p next).node (c.parent i) = c.node (c.parent i) :=
    node_store_of_lt κ c b p next (by rw [h.lengthNodes]; omega)
  have hblock : (c.store κ b p next).block i = c.block i := block_store_of_lt κ c b p next hi
  constructor <;> simp only [hnode, hparent, hup, hupNode, hblock]
  · exact e.parent_lt
  · exact e.parentHash
  · exact e.height
  · exact e.timestamp
  · exact e.proofOfWork
  · exact e.work
  · exact e.transition
  · exact e.chainId

/-- The new edge is the one the checks of `append` describe. -/
theorem edge_store_self {b : Block} {p : Nat} {next : ChainState} (ha : c.Accepts κ b p next)
    (hchain : c.tip.chainId = chainId) :
    Edge κ chainId (c.store κ b p next) c.storedBlocks.length := by
  obtain ⟨hp, hid⟩ := h.parent_of_accepts ha
  have hnode : (c.store κ b p next).node c.storedBlocks.length
      = ⟨p, (c.node p).cumulativeWork + 1, next⟩ := by
    rw [← h.lengthNodes]
    exact node_store_self κ c b p next
  have hparent : (c.store κ b p next).parent c.storedBlocks.length = p := by
    rw [Blockchain.parent, hnode]
  have hup : (c.store κ b p next).block p = c.block p := block_store_of_lt κ c b p next hp
  have hupNode : (c.store κ b p next).node p = c.node p :=
    node_store_of_lt κ c b p next (by rw [h.lengthNodes]; exact hp)
  have hblock : (c.store κ b p next).block c.storedBlocks.length = b :=
    block_store_self κ c b p next
  constructor <;> simp only [hnode, hparent, hup, hupNode, hblock]
  · exact hp
  · exact hid.symm
  · rw [ha.height]
    exact toNat_add_of_lt (b := 1) (toNat_lt_of_ne_max ha.heightRoom)
  · exact ha.timestamp
  · exact ha.proofOfWork
  · rw [h.work hp, ha.height]
  · exact ha.transition
  · rw [ha.chainId, hchain]

theorem store {b : Block} {p : Nat} {next : ChainState} (ha : c.Accepts κ b p next)
    (hchain : c.tip.chainId = chainId) : (c.store κ b p next).Tree κ chainId where
  lengthNodes := by
    have := h.lengthNodes
    simp [Blockchain.store, this]
  nonempty := by simp
  rootBlock := by rw [block_store_of_lt κ c b p next h.nonempty, h.rootBlock]
  rootNode := by
    rw [node_store_of_lt κ c b p next (by rw [h.lengthNodes]; exact h.nonempty), h.rootNode]
  edge i hpos hi := by
    rw [length_store] at hi
    rcases Nat.eq_or_lt_of_le (Nat.le_of_lt_succ hi) with rfl | hlt
    · exact h.edge_store_self ha hchain
    · exact h.edge_store_of_lt b p next hpos hlt
  index blockId i := by
    rw [length_store]
    exact h.index_store ha blockId i

/-- The branch switch does not touch the tree. -/
theorem activate (i : Nat) : (c.activate i).1.Tree κ chainId where
  lengthNodes := h.lengthNodes
  nonempty := h.nonempty
  rootBlock := h.rootBlock
  rootNode := h.rootNode
  edge j hpos hj := by
    have e := h.edge j hpos hj
    exact ⟨e.parent_lt, e.parentHash, e.height, e.timestamp, e.proofOfWork, e.work, e.transition,
      e.chainId⟩
  index := h.index

end Tree

/-! ## The active branch -/

theorem getElem?_foldl_set (active : List Nat) :
    ∀ (flags : List Bool) (i : Nat),
      (active.foldl (fun flags i => flags.set i true) flags)[i]?
        = flags[i]?.map fun flag => decide (i ∈ active) || flag := by
  induction active with
  | nil => intro flags i; simp
  | cons a active ih =>
      intro flags i
      rw [List.foldl_cons, ih, List.getElem?_set]
      by_cases ha : a = i
      · subst ha
        by_cases hlt : a < flags.length
        · simp [hlt]
        · simp [hlt]
      · rw [if_neg ha]
        have hmem : (i ∈ a :: active) ↔ i ∈ active := by simp [Ne.symm ha]
        simp only [hmem]

/-- After the refill a flag is set exactly on the active branch. -/
theorem refillFlags_eq (flags : List Bool) (active : List Nat) :
    refillFlags flags active
      = (List.range flags.length).map fun i => decide (i ∈ active) := by
  refine List.ext_getElem? fun i => ?_
  rw [refillFlags, getElem?_foldl_set]
  by_cases hi : i < flags.length
  · simp [hi]
  · have hle := Nat.le_of_not_lt hi
    simp [hle]

namespace Active

/-- A block that is not heavier is stored beside the active branch. -/
theorem store {b : Block} {p : Nat} {next : ChainState} (h : c.Active) (ht : c.Tree κ chainId)
    (hkeep : ((c.store κ b p next).node c.storedBlocks.length).cumulativeWork
      ≤ (c.node c.tipIndex).cumulativeWork) : (c.store κ b p next).Active := by
  have hnode : ∀ i, i < c.storedBlocks.length → (c.store κ b p next).node i = c.node i :=
    fun i hi => node_store_of_lt κ c b p next (by rw [ht.lengthNodes]; exact hi)
  have hpath : ∀ i, i < c.storedBlocks.length →
      path (c.store κ b p next).parent i = path c.parent i :=
    path_congr ht.descends fun j _ hj => congrArg _ (hnode j hj)
  have htip := h.firstMax.lt
  have hmem : ∀ i ∈ c.activeIndices, i < c.storedBlocks.length := by
    intro i hi
    rw [h.activeIndices] at hi
    exact Nat.lt_of_le_of_lt (le_of_mem_path ht.descends _ htip i hi) htip
  have hmax : FirstMax (fun i => ((c.store κ b p next).node i).cumulativeWork.toNat)
      c.storedBlocks.length c.tipIndex :=
    h.firstMax.congr fun i hi => by rw [hnode i hi]
  constructor
  · rw [length_store]
    refine hmax.keep ?_
    simp only [hnode c.tipIndex htip]
    exact UInt64.le_iff_toNat_le.mp hkeep
  · rw [tipIndex_store, hpath _ htip]
    exact h.activeIndices
  · have hnew : decide (c.storedBlocks.length ∈ c.activeIndices) = false :=
      decide_eq_false fun hin => Nat.lt_irrefl _ (hmem _ hin)
    show c.activeFlags ++ [false] = (List.range _).map fun i => decide (i ∈ c.activeIndices)
    rw [length_store, List.range_succ, List.map_append, List.map_singleton, hnew,
      ← h.activeFlags]
  · show c.blocks = c.activeIndices.map _
    rw [h.blocks]
    exact List.map_congr_left fun i hi => (block_store_of_lt κ c b p next (hmem i hi)).symm
  · rw [tipIndex_store, hnode _ htip]
    exact h.state

/-- The branch switch makes the whole path of the new block active. -/
theorem activate {i : Nat} (ht : c.Tree κ chainId)
    (hflags : c.activeFlags.length = c.storedBlocks.length)
    (hmax : FirstMax (fun i => (c.node i).cumulativeWork.toNat) c.storedBlocks.length i) :
    (c.activate i).1.Active := by
  have htip : (c.activate i).1.tipIndex = i := by
    show (path c.parent i).getLastD 0 = i
    rw [List.getLastD_eq_getLast?, getLast?_path ht.descends hmax.lt]
    rfl
  constructor
  · rw [htip]
    exact hmax
  · rw [htip]
    rfl
  · show refillFlags c.activeFlags (path c.parent i) = _
    rw [refillFlags_eq, hflags]
    rfl
  · rfl
  · rfl

end Active

/-! ## The invariant -/

namespace Inv

theorem new (κ : Crypto) (chainId : UInt32) : (Blockchain.new κ chainId).Inv κ chainId where
  lengthNodes := rfl
  nonempty := Nat.one_pos
  rootBlock := rfl
  rootNode := rfl
  edge i hpos hi := by
    have : i < 1 := hi
    omega
  index blockId i := by
    have hlen : (Blockchain.new κ chainId).storedBlocks.length = 1 := rfl
    have hindex : (Blockchain.new κ chainId).indexById[blockId]?
        = if (genesisBlock κ chainId).id κ = blockId then some 0
          else (∅ : Std.ExtTreeMap Hash256 Nat)[blockId]? :=
      MapSum.getElem?_insertIfNew Std.ExtTreeMap.getElem?_empty blockId _
    rw [hlen, hindex, Std.ExtTreeMap.getElem?_empty]
    constructor
    · intro hi
      split at hi
      · rename_i hid
        cases hi
        exact ⟨Nat.one_pos, hid⟩
      · cases hi
    · rintro ⟨hi, hid⟩
      obtain rfl : i = 0 := by omega
      exact if_pos hid
  firstMax := ⟨Nat.one_pos, fun i hi => by
    have : i < 1 := hi
    obtain rfl : i = 0 := by omega
    exact Nat.le_refl _, fun i hi => absurd hi (Nat.not_lt_zero i)⟩
  activeIndices := rfl
  activeFlags := rfl
  blocks := rfl
  state := rfl

variable (h : c.Inv κ chainId)

include h

theorem tipIndex_lt : c.tipIndex < c.storedBlocks.length := h.firstMax.lt

theorem length_activeFlags : c.activeFlags.length = c.storedBlocks.length := by
  rw [h.activeFlags, List.length_map, List.length_range]

theorem tip_eq : c.tip = c.block c.tipIndex := by
  have hlast := getLast?_path h.descends h.tipIndex_lt
  rw [tip, h.blocks, h.activeIndices, List.getLastD_eq_getLast?, List.getLast?_map, hlast]
  rfl

theorem chainId_tip : c.tip.chainId = chainId := by
  rw [h.tip_eq]
  exact h.chainId_block h.tipIndex_lt

/-- One accepted block: stored, then chosen or not. -/
theorem choose {b : Block} {p : Nat} {next : ChainState} (ha : c.Accepts κ b p next) :
    ((c.store κ b p next).choose c.storedBlocks.length).1.Inv κ chainId := by
  have htree := h.toTree.store ha h.chainId_tip
  have hnode : (c.store κ b p next).node c.tipIndex = c.node c.tipIndex :=
    node_store_of_lt κ c b p next (by rw [h.lengthNodes]; exact h.tipIndex_lt)
  unfold Blockchain.choose
  rw [tipIndex_store, hnode]
  split
  · rename_i hle
    exact ⟨htree, h.toActive.store h.toTree hle⟩
  · rename_i hgt
    refine ⟨htree.activate _, Active.activate htree ?_ ?_⟩
    · have := h.length_activeFlags
      simp [Blockchain.store, this]
    · have hmax : FirstMax (fun i => ((c.store κ b p next).node i).cumulativeWork.toNat)
          c.storedBlocks.length c.tipIndex :=
        h.firstMax.congr fun i hi => by
          rw [node_store_of_lt κ c b p next (by rw [h.lengthNodes]; exact hi)]
      rw [length_store]
      refine hmax.move ?_
      simp only [hnode]
      exact UInt64.lt_iff_toNat_lt.mp (UInt64.not_le.mp hgt)

/-- One step. -/
theorem append (b : Block) : (c.append κ b).1.Inv κ chainId := by
  rcases append_cases κ c b with ⟨hc, -⟩ | ⟨p, next, ha, heq⟩
  · rw [hc]
    exact h
  · rw [heq]
    exact h.choose ha

end Inv

theorem inv_appendAll (bs : List Block) :
    ∀ {c : Blockchain}, c.Inv κ chainId → (c.appendAll κ bs).Inv κ chainId := by
  induction bs with
  | nil => intro c h; exact h
  | cons b bs ih => intro c h; exact ih (h.append b)

/-- Every reachable chain satisfies the invariant. -/
theorem inv_replay (κ : Crypto) (chainId : UInt32) (bs : List Block) :
    (replay κ chainId bs).Inv κ chainId :=
  inv_appendAll bs (Inv.new κ chainId)

end Blockchain

end BBC
