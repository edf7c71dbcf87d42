/-
# `BBC.Chain.ForkChoice` — which block is the tip

The comparison that one `append` makes against the current tip keeps a global
maximum: the tip is the earliest stored block among those of greatest cumulative
work.  Since work is height and a block extends a stored one, a new maximum is
exactly one higher than the old.
-/
import BBC.Chain.Branches

namespace BBC

namespace Blockchain

open ParentTree

variable {κ : Crypto} {chainId : UInt32} {c : Blockchain}

/-! ## What an accepted block does to the tip -/

/-- The height of an accepted block does not wrap. -/
theorem Accepts.height_toNat {b : Block} {p : Nat} {next : ChainState}
    (ha : c.Accepts κ b p next) : b.height.toNat = (c.block p).height.toNat + 1 := by
  rw [ha.height]
  exact toNat_add_of_lt (b := 1) (toNat_lt_of_ne_max ha.heightRoom)

namespace Inv

variable (h : c.Inv κ chainId) {b : Block} {p : Nat} {next : ChainState}

include h

theorem work_le_tip {i : Nat} (hi : i < c.storedBlocks.length) :
    (c.node i).cumulativeWork.toNat ≤ (c.node c.tipIndex).cumulativeWork.toNat :=
  h.firstMax.greatest i hi

theorem height_le_tip {i : Nat} (hi : i < c.storedBlocks.length) :
    (c.block i).height.toNat ≤ c.tip.height.toNat := by
  rw [h.tip_eq, ← h.work hi, ← h.work h.tipIndex_lt]
  exact h.work_le_tip hi

theorem work_tip : (c.node c.tipIndex).cumulativeWork = c.tip.height := by
  rw [h.tip_eq]
  exact h.work h.tipIndex_lt

theorem node_store_tip : (c.store κ b p next).node c.tipIndex = c.node c.tipIndex :=
  node_store_of_lt κ c b p next (by rw [h.lengthNodes]; exact h.tipIndex_lt)

theorem node_new :
    (c.store κ b p next).node c.storedBlocks.length = ⟨p, (c.node p).cumulativeWork + 1, next⟩ := by
  rw [← h.lengthNodes]
  exact node_store_self κ c b p next

variable (ha : c.Accepts κ b p next)

include ha

/-- The new block's work is its height. -/
theorem work_new : ((c.store κ b p next).node c.storedBlocks.length).cumulativeWork = b.height := by
  rw [h.node_new, ha.height, h.work (h.parent_of_accepts ha).1]

/-- A block no higher than the tip leaves the tip in place. -/
theorem choose_of_le (hle : b.height ≤ c.tip.height) :
    (c.store κ b p next).choose c.storedBlocks.length = (c.store κ b p next, {}) := by
  rw [Blockchain.choose, tipIndex_store, h.work_new ha, h.node_store_tip, h.work_tip, if_pos hle]

/-- A higher one becomes the tip. -/
theorem choose_of_lt (hlt : c.tip.height < b.height) :
    (c.store κ b p next).choose c.storedBlocks.length
      = (c.store κ b p next).activate c.storedBlocks.length := by
  rw [Blockchain.choose, tipIndex_store, h.work_new ha, h.node_store_tip, h.work_tip,
    if_neg (UInt64.not_le.mpr hlt)]

theorem tip_of_le (hle : b.height ≤ c.tip.height) : (c.append κ b).1.tip = c.tip := by
  rw [append_of_accepts ha, h.choose_of_le ha hle]
  rfl

theorem tip_of_lt (hlt : c.tip.height < b.height) : (c.append κ b).1.tip = b := by
  have htree := h.toTree.store ha h.chainId_tip
  have hn : c.storedBlocks.length < (c.store κ b p next).storedBlocks.length := by
    rw [length_store]
    exact Nat.lt_succ_self _
  rw [append_of_accepts ha, h.choose_of_lt ha hlt]
  show ((path (c.store κ b p next).parent c.storedBlocks.length).map
    (c.store κ b p next).block).getLastD default = b
  rw [List.getLastD_eq_getLast?, List.getLast?_map, getLast?_path htree.descends hn]
  exact block_store_self κ c b p next

/-- A stored block is not the new one. -/
theorem ne_tip : b ≠ c.tip := by
  rintro rfl
  have hindex := (h.index (c.tip.id κ) c.tipIndex).mpr ⟨h.tipIndex_lt, by rw [h.tip_eq]⟩
  rw [ha.fresh] at hindex
  cases hindex

/-- A new tip is exactly one higher than the old. -/
theorem height_of_lt (hlt : c.tip.height < b.height) :
    b.height.toNat = c.tip.height.toNat + 1 := by
  have hparent := h.height_le_tip (h.parent_of_accepts ha).1
  have hnew := ha.height_toNat
  have := UInt64.lt_iff_toNat_lt.mp hlt
  omega

end Inv

/-! ## Every reachable chain -/

/-- The tip of a reachable chain is its earliest stored block of greatest
cumulative work.  One more `append` changes the tip exactly when it stores a
block of strictly greater work, and the active chain then grows by one. -/
theorem replay_forkChoice (κ : Crypto) (chainId : UInt32) (bs : List Block) :
    let c := replay κ chainId bs
    c.tip = c.block c.tipIndex ∧
    FirstMax (fun i => (c.node i).cumulativeWork.toNat) c.storedBlocks.length c.tipIndex ∧
    ∀ b, let c' := (c.append κ b).1
      (c'.tip ≠ c.tip ↔ c'.storedBlocks = c.storedBlocks ++ [b] ∧
        (c.node c.tipIndex).cumulativeWork < (c'.node c.storedBlocks.length).cumulativeWork) ∧
      (c'.tip ≠ c.tip → c'.tip = b ∧ c'.tip.height.toNat = c.tip.height.toNat + 1) ∧
      c.tip.height ≤ c'.tip.height := by
  intro c
  have h : c.Inv κ chainId := inv_replay κ chainId bs
  refine ⟨h.tip_eq, h.firstMax, ?_⟩
  intro b c'
  rcases append_cases κ c b with ⟨hc, -⟩ | ⟨p, next, ha, heq⟩
  · have hsame : c' = c := hc
    rw [hsame]
    refine ⟨⟨fun hne => absurd rfl hne, fun hgrow => absurd hgrow.1 (by simp)⟩,
      fun hne => absurd rfl hne, UInt64.le_refl _⟩
  · have hc' : c' = ((c.store κ b p next).choose c.storedBlocks.length).1 := congrArg Prod.fst heq
    have hstored : c'.storedBlocks = c.storedBlocks ++ [b] := by rw [hc']; simp
    have hwork : (c'.node c.storedBlocks.length).cumulativeWork = b.height := by
      rw [hc', node_choose, h.work_new ha]
    rw [hwork, h.work_tip]
    by_cases hlt : c.tip.height < b.height
    · have htip : c'.tip = b := h.tip_of_lt ha hlt
      rw [htip]
      exact ⟨⟨fun _ => ⟨hstored, hlt⟩, fun _ => h.ne_tip ha⟩,
        fun _ => ⟨rfl, h.height_of_lt ha hlt⟩, UInt64.le_of_lt hlt⟩
    · have htip : c'.tip = c.tip := h.tip_of_le ha (UInt64.not_lt.mp hlt)
      rw [htip]
      exact ⟨⟨fun hne => absurd rfl hne, fun hw => absurd hw.2 hlt⟩,
        fun hne => absurd rfl hne, UInt64.le_refl _⟩

end Blockchain

end BBC
