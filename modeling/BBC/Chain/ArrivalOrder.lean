/-
# `BBC.Chain.ArrivalOrder` — acceptance depends on the ancestors only

`append` decides on a block while looking at whatever happens to be stored.
`Derives` says the same without a store: a block stands if its parent stands and
the block passes the checks against that parent.  For an order that lists
parents first the two agree (`holds_of_derives`, `derives_of_inv`), so two such
orders of one set of blocks build trees that differ in their arrival indices and
in nothing else.

    Derives o₁ b w s  ⟺  Derives o₂ b w s        (a set of blocks has no order)
        ⇕                     ⇕
    Holds c₁ b w s         Holds c₂ b w s
-/
import BBC.Chain.ForkChoice
import BBC.Crypto.Reference

namespace BBC

namespace Blockchain

open ParentTree

variable {κ : Crypto} {chainId : UInt32} {c : Blockchain}

/-! ## The rules without a store -/

/-- `b` stands on Genesis through blocks of `S`, with the given work and state. -/
inductive Derives (κ : Crypto) (chainId : UInt32) (S : List Block) :
    Block → UInt64 → ChainState → Prop
  | genesis : Derives κ chainId S (genesisBlock κ chainId) 0 {}
  | child {q b : Block} {work : UInt64} {state next : ChainState} :
      Derives κ chainId S q work state → b ∈ S → b.isGenesis = false → b.chainId = chainId →
      b.id κ ≠ (genesisBlock κ chainId).id κ → b.previousBlockHash = q.id κ →
      checkHeader κ q b = .none → applyBlockState κ state b = .ok next →
      Derives κ chainId S b (work + 1) next

theorem Derives.mono {S S' : List Block} (hsub : S ⊆ S') {b : Block} {work : UInt64}
    {state : ChainState} (h : Derives κ chainId S b work state) :
    Derives κ chainId S' b work state := by
  induction h with
  | genesis => exact .genesis
  | child _ hmem hg hchain hid hprev hheader hstate ih =>
      exact .child ih (hsub hmem) hg hchain hid hprev hheader hstate

/-- The chain stores `b` with the given work and state. -/
def Holds (c : Blockchain) (b : Block) (work : UInt64) (state : ChainState) : Prop :=
  ∃ i, i < c.storedBlocks.length ∧ c.block i = b ∧ (c.node i).cumulativeWork = work ∧
    (c.node i).state = state

/-- Parents first: no block is listed before its parent. -/
def ParentsFirst (κ : Crypto) (o : List Block) : Prop :=
  o.Pairwise fun a b => a.previousBlockHash ≠ b.id κ

instance (o : List Block) : Decidable (ParentsFirst κ o) :=
  inferInstanceAs (Decidable (o.Pairwise fun a b => a.previousBlockHash ≠ b.id κ))

/-! ## What a run stores -/

/-- The blocks of a run that `append` accepts, in order. -/
def accepted (κ : Crypto) : Blockchain → List Block → List Block
  | _, [] => []
  | c, b :: bs =>
      if (c.append κ b).2.hasValue then b :: accepted κ (c.append κ b).1 bs
      else accepted κ (c.append κ b).1 bs

theorem hasValue_iff {r : AppendResult} : r.hasValue = true ↔ r.error = .none := by
  rw [AppendResult.hasValue, beq_iff_eq]

theorem storedBlocks_appendAll (bs : List Block) :
    ∀ c : Blockchain, (c.appendAll κ bs).storedBlocks = c.storedBlocks ++ accepted κ c bs := by
  induction bs with
  | nil => intro c; exact (List.append_nil _).symm
  | cons b bs ih =>
      intro c
      rw [appendAll, List.foldl_cons, ← appendAll, ih, accepted]
      rcases append_cases κ c b with ⟨hc, he⟩ | ⟨p, next, ha, heq⟩
      · rw [if_neg (fun hv => he (hasValue_iff.mp hv)), hc]
      · rw [if_pos (hasValue_iff.mpr (append_error_none_iff.mpr ⟨p, next, ha⟩)), heq]
        simp

theorem accepted_sublist (bs : List Block) :
    ∀ c : Blockchain, (accepted κ c bs).Sublist bs := by
  induction bs with
  | nil => intro c; exact List.Sublist.slnil
  | cons b bs ih =>
      intro c
      rw [accepted]
      split
      · exact (ih _).cons_cons b
      · exact (ih _).cons b

theorem storedBlocks_replay (κ : Crypto) (chainId : UInt32) (o : List Block) :
    (replay κ chainId o).storedBlocks
      = genesisBlock κ chainId :: accepted κ (new κ chainId) o :=
  storedBlocks_appendAll o _

theorem block_succ_replay {o : List Block} {i : Nat}
    (hi : i + 1 < (replay κ chainId o).storedBlocks.length) :
    (replay κ chainId o).block (i + 1) ∈ accepted κ (new κ chainId) o := by
  rw [storedBlocks_replay, List.length_cons, Nat.add_lt_add_iff_right] at hi
  rw [block, storedBlocks_replay, List.getD_cons_succ, List.getD_eq_getElem _ _ hi]
  exact List.getElem_mem hi

theorem mem_accepted_iff {o : List Block} {b : Block} :
    b ∈ accepted κ (new κ chainId) o ↔
      ∃ i, 0 < i ∧ i < (replay κ chainId o).storedBlocks.length ∧
        (replay κ chainId o).block i = b := by
  constructor
  · intro hb
    obtain ⟨i, hi, hget⟩ := List.mem_iff_getElem.mp hb
    refine ⟨i + 1, Nat.succ_pos i, ?_, ?_⟩
    · rw [storedBlocks_replay, List.length_cons]
      omega
    · rw [block, storedBlocks_replay, List.getD_cons_succ, List.getD_eq_getElem _ _ hi, hget]
  · rintro ⟨i, hpos, hi, rfl⟩
    obtain ⟨k, rfl⟩ : ∃ k, i = k + 1 := ⟨i - 1, by omega⟩
    exact block_succ_replay hi

theorem mem_of_replay {o : List Block} {i : Nat} (hpos : 0 < i)
    (hi : i < (replay κ chainId o).storedBlocks.length) : (replay κ chainId o).block i ∈ o :=
  (accepted_sublist o _).subset (mem_accepted_iff.mpr ⟨i, hpos, hi, rfl⟩)

/-! ## The store agrees with the rules -/

theorem Tree.checkHeader (h : c.Tree κ chainId) {i : Nat} (hpos : 0 < i)
    (hi : i < c.storedBlocks.length) :
    Blockchain.checkHeader κ (c.block (c.parent i)) (c.block i) = .none := by
  have e := h.edge i hpos hi
  have hheight := e.height
  have hlt := (c.block i).height.toNat_lt
  have hroom : (c.block (c.parent i)).height ≠ maxU64 := by
    intro hmax
    rw [hmax, maxU64_toNat] at hheight
    omega
  refine checkHeader_none_iff.mpr ⟨hroom, ?_, e.timestamp, e.proofOfWork⟩
  rw [← UInt64.toNat_inj, hheight]
  exact (toNat_add_of_lt (b := 1) (toNat_lt_of_ne_max hroom)).symm

/-- Everything stored follows from the rules. -/
theorem derives_of_inv (h : c.Inv κ chainId) {S : List Block}
    (hmem : ∀ i, 0 < i → i < c.storedBlocks.length → c.block i ∈ S) :
    ∀ i, i < c.storedBlocks.length →
      Derives κ chainId S (c.block i) (c.node i).cumulativeWork (c.node i).state := by
  refine h.descends.induct ?_ ?_
  · rw [h.rootBlock, h.rootNode]
    exact .genesis
  · intro i hpos hi ih
    have e := h.edge i hpos hi
    have hheader := h.checkHeader hpos hi
    have hup : c.parent i < c.storedBlocks.length := Nat.lt_trans e.parent_lt hi
    have hwork : (c.node i).cumulativeWork = (c.node (c.parent i)).cumulativeWork + 1 := by
      rw [h.work hi, h.work hup]
      exact (checkHeader_none_iff.mp hheader).2.1
    have hid : (c.block i).id κ ≠ (genesisBlock κ chainId).id κ := by
      rw [← h.rootBlock]
      intro heq
      have := h.id_inj hi h.nonempty heq
      omega
    rw [hwork]
    exact .child ih (hmem i hpos hi) (applyBlockState_ok_iff.mp e.transition).1 e.chainId hid
      e.parentHash hheader e.transition

theorem Inv.holds_append (h : c.Inv κ chainId) {b x : Block} {work : UInt64} {state : ChainState}
    (hx : c.Holds x work state) : (c.append κ b).1.Holds x work state := by
  obtain ⟨i, hi, hblock, hwork, hstate⟩ := hx
  rcases append_cases κ c b with ⟨hc, -⟩ | ⟨p, next, ha, heq⟩
  · rw [hc]
    exact ⟨i, hi, hblock, hwork, hstate⟩
  · rw [heq]
    refine ⟨i, ?_, ?_, ?_⟩
    · rw [storedBlocks_choose, length_store]
      omega
    · rw [block_choose, block_store_of_lt κ c b p next hi, hblock]
    · rw [node_choose, node_store_of_lt κ c b p next (by rw [h.lengthNodes]; exact hi)]
      exact ⟨hwork, hstate⟩

theorem Inv.of_holds_append (h : c.Inv κ chainId) {b x : Block} {work : UInt64}
    {state : ChainState} (hx : (c.append κ b).1.Holds x work state) :
    c.Holds x work state ∨ x = b := by
  obtain ⟨i, hi, hblock, hwork, hstate⟩ := hx
  rcases append_cases κ c b with ⟨hc, -⟩ | ⟨p, next, ha, heq⟩
  · rw [hc] at hi hblock hwork hstate
    exact Or.inl ⟨i, hi, hblock, hwork, hstate⟩
  · rw [heq] at hi hblock hwork hstate
    rw [storedBlocks_choose, length_store] at hi
    rw [block_choose] at hblock
    rw [node_choose] at hwork hstate
    rcases Nat.eq_or_lt_of_le (Nat.le_of_lt_succ hi) with rfl | hlt
    · rw [block_store_self] at hblock
      exact Or.inr hblock.symm
    · rw [block_store_of_lt κ c b p next hlt] at hblock
      rw [node_store_of_lt κ c b p next (by rw [h.lengthNodes]; exact hlt)] at hwork hstate
      exact Or.inl ⟨i, hlt, hblock, hwork, hstate⟩

/-- A block whose parent is stored, and which passes the checks against it, is
stored with the work and the state that the rules give. -/
theorem Inv.holds_append_self (h : c.Inv κ chainId) {b q : Block} {work : UInt64}
    {state next : ChainState} (hq : c.Holds q work state)
    (hfresh : ∀ i, i < c.storedBlocks.length → (c.block i).id κ ≠ b.id κ)
    (hg : b.isGenesis = false) (hchain : b.chainId = chainId)
    (hprev : b.previousBlockHash = q.id κ) (hheader : Blockchain.checkHeader κ q b = .none)
    (hstate : applyBlockState κ state b = .ok next) :
    (c.append κ b).1.Holds b (work + 1) next := by
  obtain ⟨p, hp, rfl, rfl, rfl⟩ := hq
  obtain ⟨hroom, hheight, htime, hpow⟩ := checkHeader_none_iff.mp hheader
  have hnone : c.indexById[b.id κ]? = none := by
    cases hi : c.indexById[b.id κ]? with
    | none => rfl
    | some i =>
        obtain ⟨hlt, hid⟩ := (h.index _ _).mp hi
        exact absurd hid (hfresh i hlt)
  have ha : c.Accepts κ b p next :=
    { notGenesis := hg
      chainId := by rw [h.chainId_tip, hchain]
      fresh := hnone
      parent := (h.index _ _).mpr ⟨hp, hprev.symm⟩
      heightRoom := hroom
      height := hheight
      timestamp := htime
      proofOfWork := hpow
      transition := hstate }
  rw [append_of_accepts ha]
  refine ⟨c.storedBlocks.length, ?_, ?_, ?_⟩
  · rw [storedBlocks_choose, length_store]
    exact Nat.lt_succ_self _
  · rw [block_choose, block_store_self]
  · rw [node_choose, h.node_new]
    exact ⟨rfl, rfl⟩

theorem replay_concat (κ : Crypto) (chainId : UInt32) (o : List Block) (b : Block) :
    replay κ chainId (o ++ [b]) = ((replay κ chainId o).append κ b).1 := by
  simp [replay, appendAll]

/-- Everything that follows from the rules is stored, when parents come first. -/
theorem holds_of_derives (o : List Block) :
    (o.map (Block.id κ)).Nodup → ParentsFirst κ o →
      ∀ {x : Block} {work : UInt64} {state : ChainState},
        Derives κ chainId o x work state → (replay κ chainId o).Holds x work state := by
  induction o using List.reverseRecOn with
  | nil =>
      intro _ _ x work state hd
      cases hd with
      | genesis => exact ⟨0, Nat.one_pos, rfl, rfl, rfl⟩
      | child _ hmem => cases hmem
  | append_singleton o b ih =>
      intro hnodup hfirst x work state hd
      rw [List.map_append, List.nodup_append] at hnodup
      rw [ParentsFirst, List.pairwise_append] at hfirst
      obtain ⟨hnodup, -, hdisjoint⟩ := hnodup
      obtain ⟨hfirst, -, hbefore⟩ := hfirst
      have h : (replay κ chainId o).Inv κ chainId := inv_replay κ chainId o
      rw [replay_concat]
      -- along the derivation: each block on it is stored once `b` has been tried
      induction hd with
      | genesis => exact h.holds_append (ih hnodup hfirst .genesis)
      | @child q x work state next _ hmem hg hchain hid hprev hheader hstate ihq =>
          rcases h.of_holds_append ihq with hq | rfl
          · obtain ⟨i, hi, rfl, rfl, rfl⟩ := hq
            have hd := derives_of_inv h (fun j hpos hj => mem_of_replay hpos hj) i hi
            rcases List.mem_append.mp hmem with hmem | hmem
            · exact h.holds_append
                (ih hnodup hfirst (.child hd hmem hg hchain hid hprev hheader hstate))
            · obtain rfl := List.mem_singleton.mp hmem
              refine h.holds_append_self ⟨i, hi, rfl, rfl, rfl⟩ ?_ hg hchain hprev hheader hstate
              intro j hj heq
              rcases Nat.eq_zero_or_pos j with rfl | hpos
              · rw [h.rootBlock] at heq
                exact hid heq.symm
              · exact hdisjoint _ (List.mem_map_of_mem (mem_of_replay hpos hj)) _
                  (List.mem_map_of_mem (List.mem_singleton_self x)) heq
          · -- the parent is `b` itself: it would have to come before `x`
            rcases List.mem_append.mp hmem with hmem | hmem
            · exact absurd hprev (hbefore x hmem q (List.mem_singleton_self q))
            · obtain rfl := List.mem_singleton.mp hmem
              obtain ⟨hroom, hheight, -⟩ := checkHeader_none_iff.mp hheader
              have hsucc := toNat_add_of_lt (b := 1) (toNat_lt_of_ne_max hroom)
              rw [← hheight] at hsucc
              exact absurd hsucc (by simp)

/-! ## Two trees with the same blocks -/

/-- The account state stored with a block id. -/
def stateOf (c : Blockchain) (blockId : Hash256) : Option ChainState :=
  c.indexById[blockId]?.map fun i => (c.node i).state

/-- Everything stored in `c` is stored in `d`, with the same work and state. -/
def Within (c d : Blockchain) : Prop :=
  ∀ {x : Block} {work : UInt64} {state : ChainState}, c.Holds x work state → d.Holds x work state

theorem Inv.eq_zero_of_block_eq {d : Blockchain} (hc : c.Inv κ chainId) (hd : d.Inv κ chainId)
    {j : Nat} (hj : j < d.storedBlocks.length) (heq : d.block j = c.block 0) : j = 0 := by
  refine hd.id_inj hj hd.nonempty ?_
  rw [heq, hc.rootBlock, hd.rootBlock]

/-- Where equal blocks have equal parents, they have equal branches and states. -/
theorem Inv.shared_of_parents {d : Blockchain} (hc : c.Inv κ chainId) (hd : d.Inv κ chainId)
    (hparents : ∀ i j, 0 < i → i < c.storedBlocks.length → 0 < j → j < d.storedBlocks.length →
      c.block i = d.block j → c.block (c.parent i) = d.block (d.parent j)) :
    ∀ i, i < c.storedBlocks.length → ∀ j, j < d.storedBlocks.length → c.block i = d.block j →
      c.branch i = d.branch j ∧ (c.node i).state = (d.node j).state := by
  refine hc.descends.induct ?_ ?_
  · intro j hj heq
    obtain rfl := hc.eq_zero_of_block_eq hd hj heq.symm
    rw [hc.branch_zero, hd.branch_zero, hc.rootNode, hd.rootNode]
    exact ⟨rfl, rfl⟩
  · intro i hpos hi ih j hj heq
    have hjpos : 0 < j := by
      rcases Nat.eq_zero_or_pos j with rfl | hjpos
      · have := hd.eq_zero_of_block_eq hc hi heq
        omega
      · exact hjpos
    have ec := hc.edge i hpos hi
    have ed := hd.edge j hjpos hj
    obtain ⟨hbranch, hstate⟩ := ih _ (Nat.lt_trans ed.parent_lt hj)
      (hparents i j hpos hi hjpos hj heq)
    refine ⟨?_, ?_⟩
    · rw [hc.branch_of_pos hpos hi, hd.branch_of_pos hjpos hj, hbranch, heq]
    · have htransition := ec.transition
      rw [hstate, heq, ed.transition] at htransition
      exact (Except.ok.inj htransition).symm

section within
variable {d : Blockchain} (hc : c.Inv κ chainId) (hd : d.Inv κ chainId) (hcd : c.Within d)

include hc hd hcd

theorem Within.index {blockId : Hash256} {i : Nat} (hi : c.indexById[blockId]? = some i) :
    ∃ j, d.indexById[blockId]? = some j ∧ d.block j = c.block i ∧
      (d.node j).cumulativeWork = (c.node i).cumulativeWork ∧
      (d.node j).state = (c.node i).state := by
  obtain ⟨hlt, hid⟩ := (hc.index _ _).mp hi
  obtain ⟨j, hj, hblock, hwork, hstate⟩ := hcd ⟨i, hlt, rfl, rfl, rfl⟩
  exact ⟨j, (hd.index _ _).mpr ⟨hj, by rw [hblock, hid]⟩, hblock, hwork, hstate⟩

theorem Within.height_tip : c.tip.height.toNat ≤ d.tip.height.toNat := by
  obtain ⟨j, hj, hblock, -, -⟩ := hcd ⟨c.tipIndex, hc.tipIndex_lt, rfl, rfl, rfl⟩
  rw [hc.tip_eq, ← hblock]
  exact hd.height_le_tip hj

/-- Equal blocks have equal branches. -/
theorem Within.branch_eq :
    ∀ i, i < c.storedBlocks.length → ∀ j, j < d.storedBlocks.length →
      c.block i = d.block j → c.branch i = d.branch j := by
  have hparents : ∀ i j, 0 < i → i < c.storedBlocks.length → 0 < j →
      j < d.storedBlocks.length → c.block i = d.block j →
      c.block (c.parent i) = d.block (d.parent j) := by
    intro i j hpos hi hjpos hj heq
    have ec := hc.edge i hpos hi
    have ed := hd.edge j hjpos hj
    have hup : c.parent i < c.storedBlocks.length := Nat.lt_trans ec.parent_lt hi
    have hup' : d.parent j < d.storedBlocks.length := Nat.lt_trans ed.parent_lt hj
    obtain ⟨k, hk, hblock, -, -⟩ := hcd ⟨c.parent i, hup, rfl, rfl, rfl⟩
    -- both parents have the id that the block names
    have hkj : k = d.parent j := by
      refine hd.id_inj hk hup' ?_
      rw [hblock, ← ec.parentHash, ← ed.parentHash, heq]
    rw [← hblock, hkj]
  intro i hi j hj heq
  exact (hc.shared_of_parents hd hparents i hi j hj heq).1

end within

section order
variable {o₁ o₂ : List Block} (hperm : o₁.Perm o₂) (hids : (o₁.map (Block.id κ)).Nodup)
  (h₂ : ParentsFirst κ o₂)

include hperm hids h₂

/-- The tree of one order contains the tree of another that lists parents first. -/
theorem replay_within : (replay κ chainId o₁).Within (replay κ chainId o₂) := by
  rintro x work state ⟨i, hi, rfl, rfl, rfl⟩
  have hd := derives_of_inv (inv_replay κ chainId o₁) (fun j hpos hj => mem_of_replay hpos hj) i hi
  exact holds_of_derives o₂ ((hperm.map _).nodup_iff.mp hids) h₂ (hd.mono hperm.subset)

theorem accepted_subset :
    accepted κ (new κ chainId) o₁ ⊆ accepted κ (new κ chainId) o₂ := by
  intro b hb
  obtain ⟨i, hpos, hi, rfl⟩ := mem_accepted_iff.mp hb
  have hc := inv_replay κ chainId o₁
  have hd := inv_replay κ chainId o₂
  obtain ⟨j, hj, hblock, -, -⟩ := replay_within hperm hids h₂ ⟨i, hi, rfl, rfl, rfl⟩
  refine mem_accepted_iff.mpr ⟨j, Nat.pos_of_ne_zero ?_, hj, hblock⟩
  rintro rfl
  have := hd.eq_zero_of_block_eq hc hi hblock.symm
  omega

end order

/-- Two orders of one set of blocks, each with parents before children, accept the
same blocks with the same work and the same state and end at the same height.  If
one block alone has the greatest work, the two chains show the same tip, the same
active blocks and the same state. -/
theorem replay_arrivalOrder (κ : Crypto) (chainId : UInt32) {o₁ o₂ : List Block}
    (hperm : o₁.Perm o₂) (hids : (o₁.map (Block.id κ)).Nodup)
    (h₁ : ParentsFirst κ o₁) (h₂ : ParentsFirst κ o₂) :
    let c₁ := replay κ chainId o₁
    let c₂ := replay κ chainId o₂
    (∀ b, b ∈ accepted κ (new κ chainId) o₁ ↔ b ∈ accepted κ (new κ chainId) o₂) ∧
    (∀ blockId, c₁.cumulativeWork blockId = c₂.cumulativeWork blockId ∧
      c₁.stateOf blockId = c₂.stateOf blockId) ∧
    c₁.tip.height = c₂.tip.height ∧
    ((∀ i, i < c₁.storedBlocks.length →
        (c₁.node i).cumulativeWork = (c₁.node c₁.tipIndex).cumulativeWork → i = c₁.tipIndex) →
      c₁.tip = c₂.tip ∧ c₁.blocks = c₂.blocks ∧ c₁.state = c₂.state) := by
  intro c₁ c₂
  have hc : c₁.Inv κ chainId := inv_replay κ chainId o₁
  have hd : c₂.Inv κ chainId := inv_replay κ chainId o₂
  have hids₂ := (hperm.map (Block.id κ)).nodup_iff.mp hids
  have hcd : c₁.Within c₂ := replay_within hperm hids h₂
  have hdc : c₂.Within c₁ := replay_within hperm.symm hids₂ h₁
  have hheight : c₁.tip.height = c₂.tip.height := by
    have hle := Within.height_tip hc hd hcd
    have hge := Within.height_tip hd hc hdc
    exact UInt64.toNat_inj.mp (Nat.le_antisymm hle hge)
  refine ⟨fun b => ⟨fun hb => accepted_subset hperm hids h₂ hb,
    fun hb => accepted_subset hperm.symm hids₂ h₁ hb⟩, ?_, hheight, ?_⟩
  · intro blockId
    rw [cumulativeWork, cumulativeWork, stateOf, stateOf]
    cases hi : c₁.indexById[blockId]? with
    | some i =>
        obtain ⟨j, hj, -, hwork, hstate⟩ := Within.index hc hd hcd hi
        rw [hj]
        exact ⟨congrArg some hwork.symm, congrArg some hstate.symm⟩
    | none =>
        cases hj : c₂.indexById[blockId]? with
        | none => exact ⟨rfl, rfl⟩
        | some j =>
            obtain ⟨i, hi', -⟩ := Within.index hd hc hdc hj
            rw [hi] at hi'
            cases hi'
  · intro hunique
    -- the second tip, looked up in the first tree, has the greatest work there
    obtain ⟨i, hi, hblock, hwork, hstate⟩ := hdc ⟨c₂.tipIndex, hd.tipIndex_lt, rfl, rfl, rfl⟩
    have hi : i = c₁.tipIndex := by
      refine hunique i hi ?_
      rw [hwork, hd.work_tip, hc.work_tip, hheight]
    subst hi
    have hbranch := Within.branch_eq hc hd hcd _ hc.tipIndex_lt _ hd.tipIndex_lt hblock
    refine ⟨?_, ?_, ?_⟩
    · rw [hc.tip_eq, hd.tip_eq, hblock]
    · rw [hc.blocks, hc.activeIndices, hd.blocks, hd.activeIndices]
      exact hbranch
    · rw [hc.state, hd.state, hstate]

end Blockchain

open Blockchain in
theorem replay_arrivalOrder_mined :
    (∀ b, b ∈ accepted reference (new reference 2) [minedFirst, minedSibling, minedChild] ↔
      b ∈ accepted reference (new reference 2) [minedSibling, minedFirst, minedChild]) ∧
    (replay reference 2 [minedFirst, minedSibling, minedChild]).tip.height
      = (replay reference 2 [minedSibling, minedFirst, minedChild]).tip.height := by
  have h := replay_arrivalOrder reference 2
    (List.Perm.swap minedSibling minedFirst [minedChild]) (by decide +kernel) (by decide +kernel)
    (by decide +kernel)
  exact ⟨h.1, h.2.2.1⟩

end BBC
