/-
# `BBC.Chain.Catchup` — one chain takes over the active branch of another

`c` is fed the active blocks of `d`, one after the other, from a block that both store.
Blocks that `c` has already are passed over.  A block stands on its ancestors alone, and
equal ids mean equal blocks, so what `d` has accepted `c` accepts too; and since work is
height, `c` changes its tip only where the fed blocks rise above what it had.

    d.blocks   0 ─ … ─ p ─ p+1 ─ … ─ tip
                       │    └── accepted or known, whatever else `c` stores
                       └── stored in `c`

When the whole branch has been fed and it is the higher one, the active chains agree
(`Catching.blocks_eq`).
-/
import BBC.Chain.ArrivalOrder
import BBC.Chain.Locator

namespace BBC

namespace Blockchain

open ParentTree

variable {κ : Crypto} {chainId : UInt32} {c d : Blockchain}

/-! ## Blocks that two chains share -/

/-- Across the two chains equal ids mean equal blocks. -/
def Coherent (κ : Crypto) (c d : Blockchain) : Prop :=
  ∀ a ∈ c.storedBlocks, ∀ b ∈ d.storedBlocks, a.id κ = b.id κ → a = b

theorem block_mem {i : Nat} (hi : i < c.storedBlocks.length) : c.block i ∈ c.storedBlocks := by
  rw [block, List.getD_eq_getElem _ _ hi]
  exact List.getElem_mem hi

theorem exists_block {b : Block} (hb : b ∈ c.storedBlocks) :
    ∃ i, i < c.storedBlocks.length ∧ c.block i = b := by
  obtain ⟨i, hi, rfl⟩ := List.mem_iff_getElem.mp hb
  exact ⟨i, hi, List.getD_eq_getElem _ _ hi⟩

/-- `contains` finds exactly the stored ids. -/
theorem Tree.contains_iff (h : c.Tree κ chainId) {blockId : Hash256} :
    c.contains blockId = true ↔ ∃ i, i < c.storedBlocks.length ∧ (c.block i).id κ = blockId := by
  rw [contains, ← Std.ExtTreeMap.isSome_getElem?_eq_contains, Option.isSome_iff_exists]
  exact exists_congr fun i => h.index blockId i

theorem Tree.contains_block (h : c.Tree κ chainId) {i : Nat} (hi : i < c.storedBlocks.length) :
    c.contains ((c.block i).id κ) = true :=
  h.contains_iff.mpr ⟨i, hi, rfl⟩

section shared
variable (hc : c.Inv κ chainId) (hd : d.Inv κ chainId) (hco : c.Coherent κ d)

include hc hd hco

theorem Coherent.shared :
    ∀ i, i < c.storedBlocks.length → ∀ j, j < d.storedBlocks.length → c.block i = d.block j →
      c.branch i = d.branch j ∧ (c.node i).state = (d.node j).state := by
  refine hc.shared_of_parents hd ?_
  intro i j hpos hi hjpos hj heq
  have ec := hc.edge i hpos hi
  have ed := hd.edge j hjpos hj
  refine hco _ (block_mem (Nat.lt_trans ec.parent_lt hi)) _
    (block_mem (Nat.lt_trans ed.parent_lt hj)) ?_
  rw [← ec.parentHash, ← ed.parentHash, heq]

end shared

/-! ## The active branch -/

namespace Inv

variable (h : c.Inv κ chainId)

include h

theorem exists_active {p : Nat} {b : Block} (hb : c.blocks[p]? = some b) :
    ∃ j, j ∈ path c.parent c.tipIndex ∧ j < c.storedBlocks.length ∧ c.block j = b := by
  rw [h.blocks_eq_branch, branch, List.getElem?_map] at hb
  obtain ⟨j, hj, rfl⟩ := Option.map_eq_some_iff.mp hb
  have hmem := List.mem_of_getElem? hj
  exact ⟨j, hmem, h.lt_of_mem_path h.tipIndex_lt hmem, rfl⟩

theorem mem_of_active {b : Block} (hb : b ∈ c.blocks) : b ∈ c.storedBlocks := by
  obtain ⟨p, hp⟩ := List.mem_iff_getElem?.mp hb
  obtain ⟨j, -, hj, rfl⟩ := h.exists_active hp
  exact block_mem hj

theorem getElem?_of_mem_path {j : Nat} (hj : j ∈ path c.parent c.tipIndex) :
    c.blocks[(c.block j).height.toNat]? = some (c.block j) := by
  have hpath := h.getElem?_path_height h.tipIndex_lt hj
  rw [h.blocks_eq_branch, branch, List.getElem?_map, hpath]
  rfl

theorem getElem?_tip : c.blocks[c.tip.height.toNat]? = some c.tip := by
  rw [h.tip_eq]
  exact h.getElem?_of_mem_path (mem_path_self h.descends h.tipIndex_lt)

/-- An active block above Genesis stands on the one before it. -/
theorem active_succ {p : Nat} {b : Block} (hb : c.blocks[p + 1]? = some b) :
    ∃ j, 0 < j ∧ j < c.storedBlocks.length ∧ c.block j = b ∧
      c.blocks[p]? = some (c.block (c.parent j)) := by
  obtain ⟨j, hmem, hj, rfl⟩ := h.exists_active hb
  have hheight := h.height_of_getElem? hb
  have hpos : 0 < j := by
    rcases Nat.eq_zero_or_pos j with rfl | hpos
    · rw [h.height_root] at hheight
      omega
    · exact hpos
  have e := h.edge j hpos hj
  have hparent : c.parent j ∈ path c.parent c.tipIndex := by
    refine h.path_subset h.tipIndex_lt hmem ?_
    rw [path_of_pos h.descends hpos hj]
    exact List.mem_append_left _ (mem_path_self h.descends (Nat.lt_trans e.parent_lt hj))
  have hat := h.getElem?_of_mem_path hparent
  have hp : (c.block (c.parent j)).height.toNat = p := by
    have := e.height
    omega
  rw [hp] at hat
  exact ⟨j, hpos, hj, rfl, hat⟩

/-- One `append` raises the tip to the new block or not at all. -/
theorem tip_append (b : Block) :
    (c.append κ b).1.tip = c.tip ∨
      ((c.append κ b).1.tip = b ∧ c.tip.height < b.height) := by
  rcases append_cases κ c b with ⟨hsame, -⟩ | ⟨p, next, ha, -⟩
  · rw [hsame]
    exact Or.inl rfl
  · by_cases hlt : c.tip.height < b.height
    · exact Or.inr ⟨h.tip_of_lt ha hlt, hlt⟩
    · exact Or.inl (h.tip_of_le ha (UInt64.not_lt.mp hlt))

end Inv

theorem append_of_contains {b : Block} (h : c.contains (b.id κ) = true) :
    (c.append κ b).1 = c ∧ (c.append κ b).2.hasValue = false := by
  rcases append_cases κ c b with ⟨hsame, herror⟩ | ⟨p, next, ha, -⟩
  · refine ⟨hsame, ?_⟩
    rw [AppendResult.hasValue]
    exact beq_eq_false_iff_ne.mpr herror
  · have hnone := contains_eq_false.mpr ha.fresh
    rw [contains, hnone] at h
    cases h

/-! ## Feeding the blocks -/

/-- `c` is being fed the active blocks of `d`: it stores the one at `p`, and its tip is no
higher than `limit` or one of the blocks up to `p`. -/
structure Catching (κ : Crypto) (chainId : UInt32) (d : Blockchain) (limit : Nat)
    (c : Blockchain) (p : Nat) : Prop where
  inv : c.Inv κ chainId
  coherent : c.Coherent κ d
  stored : ∃ i, i < c.storedBlocks.length ∧ d.blocks[p]? = some (c.block i)
  tip : c.tip.height.toNat ≤ limit ∨ (c.tip ∈ d.blocks ∧ c.tip.height.toNat ≤ p)

section catching
variable {limit p : Nat} (h : Catching κ chainId d limit c p) (hd : d.Inv κ chainId)

include h hd

theorem Catching.contains {b : Block} (hb : b ∈ d.blocks.take (p + 1)) :
    c.contains (b.id κ) = true := by
  obtain ⟨i, hi, hat⟩ := h.stored
  obtain ⟨j, hmem, hj, heq⟩ := hd.exists_active hat
  obtain ⟨hbranch, -⟩ := h.coherent.shared h.inv hd i hi j hj heq.symm
  obtain ⟨rest, hrest⟩ := path_eq_append_of_mem hd.descends _ hd.tipIndex_lt j hmem
  -- the first `p + 1` active blocks of `d` are the branch of the one at `p`
  have htake : d.blocks.take (p + 1) = d.branch j := by
    have hlength : (d.branch j).length = p + 1 := by
      rw [hd.length_branch hj, heq, hd.height_of_getElem? hat]
    rw [hd.blocks_eq_branch, branch, hrest, List.map_append]
    exact List.take_left' hlength
  rw [htake, ← hbranch, branch] at hb
  obtain ⟨k, hk, rfl⟩ := List.mem_map.mp hb
  exact h.inv.contains_block (h.inv.lt_of_mem_path hi hk)

/-- The next active block is known or accepted, and then stored. -/
theorem Catching.next {b : Block} (hb : d.blocks[p + 1]? = some b) :
    (c.contains (b.id κ) = true ∨ (c.append κ b).2.hasValue = true) ∧
      Catching κ chainId d limit (c.append κ b).1 (p + 1) := by
  obtain ⟨j, hpos, hj, hblock, hparent⟩ := hd.active_succ hb
  obtain ⟨i, hi, hat⟩ := h.stored
  have hequal : c.block i = d.block (d.parent j) := Option.some.inj (hat.symm.trans hparent)
  have e := hd.edge j hpos hj
  have hup : d.parent j < d.storedBlocks.length := Nat.lt_trans e.parent_lt hj
  have hstate := (h.coherent.shared h.inv hd i hi _ hup hequal).2
  have hmem : b ∈ d.storedBlocks := by
    rw [← hblock]
    exact block_mem hj
  have hinv := h.inv.append b
  -- the block is stored afterwards, and `append` has refused it only if it was known
  have hafter : (c.contains (b.id κ) = true ∨ (c.append κ b).2.hasValue = true) ∧
      ∃ k, k < (c.append κ b).1.storedBlocks.length ∧ (c.append κ b).1.block k = b := by
    cases hcontains : c.contains (b.id κ) with
    | true =>
        refine ⟨Or.inl rfl, ?_⟩
        rw [(append_of_contains hcontains).1]
        obtain ⟨k, hk, hid⟩ := h.inv.contains_iff.mp hcontains
        exact ⟨k, hk, h.coherent _ (block_mem hk) _ hmem hid⟩
    | false =>
        have hfresh : ∀ k, k < c.storedBlocks.length → (c.block k).id κ ≠ b.id κ := by
          intro k hk hid
          have hknown := h.inv.contains_iff.mpr ⟨k, hk, hid⟩
          rw [hcontains] at hknown
          cases hknown
        have hholds : (c.append κ b).1.Holds b ((c.node i).cumulativeWork + 1)
            (d.node j).state := by
          refine h.inv.holds_append_self ⟨i, hi, rfl, rfl, rfl⟩ hfresh ?_ ?_ ?_ ?_ ?_
          · rw [← hblock]
            exact (applyBlockState_ok_iff.mp e.transition).1
          · rw [← hblock]
            exact e.chainId
          · rw [← hblock, hequal]
            exact e.parentHash
          · rw [hequal, ← hblock]
            exact hd.checkHeader hpos hj
          · rw [hstate, ← hblock]
            exact e.transition
        obtain ⟨k, hk, hkb, -⟩ := hholds
        refine ⟨Or.inr ?_, k, hk, hkb⟩
        rcases append_cases κ c b with ⟨hsame, -⟩ | ⟨q, next, ha, -⟩
        · rw [hsame] at hk hkb
          exact absurd (congrArg (Block.id κ) hkb) (hfresh k hk)
        · exact hasValue_iff.mpr (append_error_none_iff.mpr ⟨q, next, ha⟩)
  obtain ⟨hknown, k, hk, hkb⟩ := hafter
  refine ⟨hknown, hinv, ?_, ⟨k, hk, by rw [hkb]; exact hb⟩, ?_⟩
  · intro a ha x hx hid
    obtain ⟨l, hl, rfl⟩ := exists_block ha
    rcases h.inv.of_holds_append ⟨l, hl, rfl, rfl, rfl⟩ with ⟨l', hl', hsame, -⟩ | hnew
    · rw [← hsame] at hid ⊢
      exact h.coherent _ (block_mem hl') x hx hid
    · rw [hnew] at hid ⊢
      obtain ⟨x', hx', rfl⟩ := exists_block hx
      rw [← hblock] at hid ⊢
      exact congrArg d.block (hd.id_inj hj hx' hid)
  · rcases h.inv.tip_append (b := b) with hsame | ⟨hnew, -⟩
    · rw [hsame]
      rcases h.tip with hlow | ⟨hactive, hle⟩
      · exact Or.inl hlow
      · exact Or.inr ⟨hactive, Nat.le_succ_of_le hle⟩
    · rw [hnew]
      refine Or.inr ⟨List.mem_of_getElem? hb, ?_⟩
      rw [hd.height_of_getElem? hb]

end catching

/-- Before the last block the tip is lower than the target. -/
theorem Catching.tip_lt {limit p : Nat} (h : Catching κ chainId d limit c p)
    (hlimit : limit < d.tip.height.toNat) (hp : p < d.tip.height.toNat) :
    c.tip.height.toNat < d.tip.height.toNat := by
  rcases h.tip with hlow | ⟨-, hle⟩
  · omega
  · omega

/-- After the last one the active chains agree. -/
theorem Catching.blocks_eq {limit : Nat} (h : Catching κ chainId d limit c d.tip.height.toNat)
    (hd : d.Inv κ chainId) (hlimit : limit < d.tip.height.toNat) :
    c.tip = d.tip ∧ c.blocks = d.blocks := by
  obtain ⟨i, hi, hat⟩ := h.stored
  have htipBlock : c.block i = d.tip := Option.some.inj (hat.symm.trans hd.getElem?_tip)
  have hheight : d.tip.height.toNat ≤ c.tip.height.toNat := by
    rw [← htipBlock]
    exact h.inv.height_le_tip hi
  have htip : c.tip = d.tip := by
    rcases h.tip with hlow | ⟨hactive, hle⟩
    · omega
    · obtain ⟨q, hq⟩ := List.mem_iff_getElem?.mp hactive
      have hqheight := hd.height_of_getElem? hq
      have hsame : q = d.tip.height.toNat := by omega
      rw [hsame, hd.getElem?_tip] at hq
      exact (Option.some.inj hq).symm
  refine ⟨htip, ?_⟩
  rw [h.inv.blocks_eq_branch, hd.blocks_eq_branch]
  refine (h.coherent.shared h.inv hd _ h.inv.tipIndex_lt _ hd.tipIndex_lt ?_).1
  rw [← h.inv.tip_eq, ← hd.tip_eq, htip]

end Blockchain

end BBC
