/-
# `BBC.Chain.Locator` — the block locator

`Blockchain::block_locator` walks from a stored block towards Genesis, one block at a
time at first and then in steps that double.  Whatever the steps are, its entries lie
on the branch of the start with falling heights, the first is the start, and the last is
Genesis.

`locatorWhile` is the loop with the `size_t` variables of the source.  The doubling of
`step` can wrap; a walk that has come that far has reached Genesis
(`Tree.locatorWhile_eq`), so the entries are those of the exact `locatorLoop`.
-/
import BBC.Chain.BlockTree

namespace BBC

open ParentTree

namespace Blockchain

variable {κ : Crypto} {chainId : UInt32} {c : Blockchain}

/-- The entry of a stored block. -/
def entry (κ : Crypto) (c : Blockchain) (i : Nat) : UInt64 × Hash256 :=
  ((c.block i).height, (c.block i).id κ)

theorem locatorLoop_succ (κ : Crypto) (c : Blockchain) (maximumEntries fuel size index step : Nat) :
    c.locatorLoop κ maximumEntries (fuel + 1) size index step
      = if index = 0 then [c.entry κ index]
        else if size + 1 + 1 = maximumEntries then
          c.entry κ index :: c.locatorLoop κ maximumEntries fuel (size + 1) 0 step
        else
          c.entry κ index :: c.locatorLoop κ maximumEntries fuel (size + 1)
            (c.ancestor step index)
            (if size + 1 ≥ 10 ∧ step ≤ maximumEntries then step * 2 else step) := rfl

/-- At Genesis the step no longer matters. -/
theorem locatorLoop_root (maximumEntries fuel size step step' : Nat) :
    c.locatorLoop κ maximumEntries fuel size 0 step
      = c.locatorLoop κ maximumEntries fuel size 0 step' := by
  cases fuel with
  | zero => rfl
  | succ fuel => rfl

/-- The `while` of `block_locator` with its own variables: the vector that grows at the
end, the `size_t` bound, and the `size_t` step.  `none` when the fuel is spent first. -/
def locatorWhile (κ : Crypto) (c : Blockchain) (maximumEntries : UInt64) :
    Nat → List (UInt64 × Hash256) → Nat → UInt64 → Option (List (UInt64 × Hash256))
  | 0, _, _, _ => none
  | fuel + 1, locator, index, step =>
      if locator.length < maximumEntries.toNat then
        let locator := locator ++ [((c.block index).height, (c.block index).id κ)]
        if index = 0 then some locator
        else if locator.length + 1 = maximumEntries.toNat then
          c.locatorWhile κ maximumEntries fuel locator 0 step
        else
          let index := c.ancestor step.toNat index
          let step := if locator.length ≥ 10 ∧ step ≤ maximumEntries then step * 2 else step
          c.locatorWhile κ maximumEntries fuel locator index step
      else some locator

theorem locatorWhile_succ (κ : Crypto) (c : Blockchain) (maximumEntries : UInt64) (fuel : Nat)
    (locator : List (UInt64 × Hash256)) (index : Nat) (step : UInt64) :
    c.locatorWhile κ maximumEntries (fuel + 1) locator index step
      = if locator.length < maximumEntries.toNat then
          if index = 0 then some (locator ++ [c.entry κ index])
          else if locator.length + 1 + 1 = maximumEntries.toNat then
            c.locatorWhile κ maximumEntries fuel (locator ++ [c.entry κ index]) 0 step
          else
            c.locatorWhile κ maximumEntries fuel (locator ++ [c.entry κ index])
              (c.ancestor step.toNat index)
              (if locator.length + 1 ≥ 10 ∧ step ≤ maximumEntries then step * 2 else step)
        else some locator := by
  simp only [locatorWhile, List.length_append, List.length_singleton, entry]

/-- `Blockchain::block_locator` with that loop. -/
def blockLocatorWhile (κ : Crypto) (c : Blockchain) (start : Hash256) (maximumEntries : UInt64)
    (fuel : Nat) : Option (List (UInt64 × Hash256)) :=
  match c.indexById[start]? with
  | none => some []
  | some index =>
      if maximumEntries = 0 then some [] else c.locatorWhile κ maximumEntries fuel [] index 1

namespace Tree

variable (h : c.Tree κ chainId)

include h

theorem ancestor_mem_path (step : Nat) :
    ∀ {i : Nat}, i < c.storedBlocks.length → c.ancestor step i ∈ path c.parent i := by
  induction step with
  | zero =>
      intro i hi
      exact mem_path_self h.descends hi
  | succ step ih =>
      intro i hi
      rw [ancestor]
      split
      · rename_i hzero
        rw [hzero, path_zero]
        exact List.mem_singleton_self 0
      · rename_i hpos
        have hpos := Nat.pos_of_ne_zero hpos
        rw [path_of_pos h.descends hpos hi]
        exact List.mem_append_left _ (ih ((h.descends i hpos hi).trans hi))

theorem lt_of_mem_path {i j : Nat} (hi : i < c.storedBlocks.length) (hj : j ∈ path c.parent i) :
    j < c.storedBlocks.length :=
  (le_of_mem_path h.descends i hi j hj).trans_lt hi

theorem path_subset {i j x : Nat} (hi : i < c.storedBlocks.length) (hj : j ∈ path c.parent i)
    (hx : x ∈ path c.parent j) : x ∈ path c.parent i := by
  obtain ⟨rest, hrest⟩ := path_eq_append_of_mem h.descends i hi j hj
  rw [hrest]
  exact List.mem_append_left _ hx

theorem zero_mem_path {i : Nat} (hi : i < c.storedBlocks.length) : 0 ∈ path c.parent i := by
  refine h.descends.induct (P := fun i => 0 ∈ path c.parent i) ?_ ?_ i hi
  · rw [path_zero]
    exact List.mem_singleton_self 0
  · intro i hpos hi ih
    rw [path_of_pos h.descends hpos hi]
    exact List.mem_append_left _ ih

theorem mem_locatorLoop (maximumEntries : Nat) (fuel : Nat) :
    ∀ {size index step : Nat}, index < c.storedBlocks.length →
      ∀ e ∈ c.locatorLoop κ maximumEntries fuel size index step,
        ∃ j ∈ path c.parent index, e = c.entry κ j := by
  induction fuel with
  | zero => intro size index step _ e he; exact absurd he List.not_mem_nil
  | succ fuel ih =>
      intro size index step hi e he
      have hself := mem_path_self h.descends hi
      rw [locatorLoop_succ] at he
      split at he
      · exact ⟨index, hself, List.mem_singleton.mp he⟩
      split at he
      · rcases List.mem_cons.mp he with rfl | he
        · exact ⟨index, hself, rfl⟩
        · obtain ⟨j, hj, rfl⟩ := ih h.nonempty e he
          exact ⟨j, h.path_subset hi (h.zero_mem_path hi) hj, rfl⟩
      · rcases List.mem_cons.mp he with rfl | he
        · exact ⟨index, hself, rfl⟩
        · have hancestor := h.ancestor_mem_path step hi
          obtain ⟨j, hj, rfl⟩ := ih (h.lt_of_mem_path hi hancestor) e he
          exact ⟨j, h.path_subset hi hancestor hj, rfl⟩

omit h in
theorem length_locatorLoop (maximumEntries : Nat) (fuel : Nat) :
    ∀ {size index step : Nat},
      (c.locatorLoop κ maximumEntries fuel size index step).length ≤ fuel := by
  induction fuel with
  | zero => intro size index step; exact Nat.le_refl 0
  | succ fuel ih =>
      intro size index step
      rw [locatorLoop_succ]
      split
      · exact Nat.succ_le_succ (Nat.zero_le fuel)
      split
      · exact Nat.succ_le_succ ih
      · exact Nat.succ_le_succ ih

/-- With room for two entries the last one is Genesis. -/
theorem getLast?_locatorLoop (maximumEntries : Nat) (fuel : Nat) :
    ∀ {size index step : Nat}, index < c.storedBlocks.length → fuel + size = maximumEntries →
      (index = 0 ∧ 0 < fuel) ∨ 2 ≤ fuel →
      (c.locatorLoop κ maximumEntries fuel size index step).getLast? = some (c.entry κ 0) := by
  induction fuel with
  | zero => intro size index step _ _ hfuel; omega
  | succ fuel ih =>
      intro size index step hi hmax hfuel
      rw [locatorLoop_succ]
      split
      · rename_i hzero
        rw [hzero]
        rfl
      split
      · rw [List.getLast?_cons, ih h.nonempty (by omega) (Or.inl ⟨rfl, by omega⟩)]
        rfl
      · have hlt := h.lt_of_mem_path hi (h.ancestor_mem_path step hi)
        rw [List.getLast?_cons, ih hlt (by omega) (Or.inr (by omega))]
        rfl

theorem root_mem_locatorLoop (maximumEntries : Nat) (fuel : Nat) {size index step : Nat}
    (hi : index < c.storedBlocks.length) (hmax : fuel + size = maximumEntries)
    (hfuel : (index = 0 ∧ 0 < fuel) ∨ 2 ≤ fuel) :
    c.entry κ 0 ∈ c.locatorLoop κ maximumEntries fuel size index step :=
  List.mem_of_getLast? (h.getLast?_locatorLoop maximumEntries fuel hi hmax hfuel)

/-! ## Heights -/

theorem height_pos {i : Nat} (hpos : 0 < i) (hi : i < c.storedBlocks.length) :
    0 < (c.block i).height.toNat := by
  rw [(h.edge i hpos hi).height]
  exact Nat.succ_pos _

theorem ancestor_lt {i : Nat} (hi : i < c.storedBlocks.length) (step : Nat) :
    c.ancestor step i < c.storedBlocks.length :=
  h.lt_of_mem_path hi (h.ancestor_mem_path step hi)

/-- `step` parents up is `step` lower, as far as Genesis. -/
theorem height_ancestor (step : Nat) :
    ∀ {i : Nat}, i < c.storedBlocks.length →
      (c.block (c.ancestor step i)).height.toNat = (c.block i).height.toNat - step := by
  induction step with
  | zero => intro i _; rfl
  | succ step ih =>
      intro i hi
      rw [ancestor]
      split
      · rename_i hzero
        rw [hzero, h.height_root, Nat.zero_sub]
      · rename_i hpos
        have e := h.edge i (Nat.pos_of_ne_zero hpos) hi
        rw [ih (e.parent_lt.trans hi), e.height]
        omega

/-- The ancestors of a block are its branch, read from the end. -/
theorem getElem?_reverse_path {i k : Nat} (hi : i < c.storedBlocks.length)
    (hk : k ≤ (c.block i).height.toNat) :
    (path c.parent i).reverse[k]? = some (c.ancestor k i) := by
  have hlength := h.length_path hi
  have hat := h.getElem?_path_height hi (h.ancestor_mem_path k hi)
  have hheight := h.height_ancestor k hi
  rw [List.getElem?_reverse (by omega), ← hat, hheight, hlength, Nat.add_sub_cancel]

/-- A block of the branch is no higher than its end. -/
theorem height_le_of_mem_path {i j : Nat} (hi : i < c.storedBlocks.length)
    (hj : j ∈ path c.parent i) : (c.block j).height.toNat ≤ (c.block i).height.toNat := by
  have hat := h.getElem?_path_height hi hj
  obtain ⟨hlt, -⟩ := List.getElem?_eq_some_iff.mp hat
  rw [h.length_path hi] at hlt
  exact Nat.lt_succ_iff.mp hlt

/-- The heights fall from entry to entry: each move goes up at least one parent. -/
theorem pairwise_locatorLoop (maximumEntries : Nat) (fuel : Nat) :
    ∀ {size index step : Nat}, index < c.storedBlocks.length → 0 < step →
      (c.locatorLoop κ maximumEntries fuel size index step).Pairwise fun a b => b.1 < a.1 := by
  induction fuel with
  | zero => intro size index step _ _; exact List.Pairwise.nil
  | succ fuel ih =>
      intro size index step hi hstep
      -- whatever follows starts at a lower block
      have hbelow : ∀ {next size step : Nat}, next < c.storedBlocks.length →
          (c.block next).height.toNat < (c.block index).height.toNat →
          ∀ e ∈ c.locatorLoop κ maximumEntries fuel size next step, e.1 < (c.entry κ index).1 := by
        intro next size step hnext hlower e he
        obtain ⟨j, hj, rfl⟩ := h.mem_locatorLoop maximumEntries fuel hnext e he
        exact UInt64.lt_iff_toNat_lt.mpr ((h.height_le_of_mem_path hnext hj).trans_lt hlower)
      rw [locatorLoop_succ]
      split
      · exact List.pairwise_singleton _ _
      rename_i hpos
      have hheight := h.height_pos (Nat.pos_of_ne_zero hpos) hi
      split
      · refine List.pairwise_cons.mpr ⟨hbelow h.nonempty ?_, ih h.nonempty hstep⟩
        rw [h.height_root]
        exact hheight
      · refine List.pairwise_cons.mpr ⟨hbelow (h.ancestor_lt hi step) ?_,
          ih (h.ancestor_lt hi step) ?_⟩
        · rw [h.height_ancestor step hi]
          omega
        · split
          · omega
          · exact hstep

/-- While fewer than eleven entries stand, each is the parent of the one before it. -/
theorem getElem?_locatorLoop {maximumEntries : Nat} (hmax : 12 ≤ maximumEntries) (k : Nat) :
    ∀ {fuel size index step : Nat}, index < c.storedBlocks.length →
      fuel + size = maximumEntries → size + k ≤ 10 → k ≤ (c.block index).height.toNat →
      k = 0 ∨ step = 1 →
      (c.locatorLoop κ maximumEntries fuel size index step)[k]?
        = some (c.entry κ (c.ancestor k index)) := by
  induction k with
  | zero =>
      intro fuel size index step hi hfuel hsize _ _
      obtain ⟨fuel, rfl⟩ := Nat.exists_eq_succ_of_ne_zero (show fuel ≠ 0 by omega)
      rw [locatorLoop_succ]
      split
      · rfl
      split
      · rfl
      · rfl
  | succ k ih =>
      intro fuel size index step hi hfuel hsize hk hstep
      obtain ⟨fuel, rfl⟩ := Nat.exists_eq_succ_of_ne_zero (show fuel ≠ 0 by omega)
      have hone : step = 1 := hstep.resolve_left (Nat.succ_ne_zero k)
      have hpos : index ≠ 0 := by
        rintro rfl
        rw [h.height_root] at hk
        omega
      have e := h.edge index (Nat.pos_of_ne_zero hpos) hi
      have hup : c.ancestor step index = c.parent index := by
        rw [hone, ancestor, if_neg hpos]
        rfl
      rw [locatorLoop_succ, if_neg hpos, if_neg (by omega), List.getElem?_cons_succ, hup]
      rw [ih (e.parent_lt.trans hi) (by omega) (by omega) (by rw [e.height] at hk; omega) ?_]
      · rw [ancestor, if_neg hpos]
      · -- the step doubles after the tenth entry, when one single move is left
        by_cases hlast : k = 0
        · exact Or.inl hlast
        · right
          rw [if_neg (by omega), hone]

/-! ## The loop of the source -/

/-- The loop ends, with the entries of the exact one.  As long as the walk is above Genesis
its height and `step` stay together below `2 ^ 64`, so no doubling has wrapped. -/
theorem locatorWhile_eq {maximumEntries : UInt64} (remaining : Nat) :
    ∀ {fuel index : Nat} {locator : List (UInt64 × Hash256)} {step : UInt64},
      index < c.storedBlocks.length → locator.length + remaining = maximumEntries.toNat →
      remaining < fuel →
      index = 0 ∨ (c.block index).height.toNat + step.toNat ≤ 2 ^ 64 →
      c.locatorWhile κ maximumEntries fuel locator index step
        = some (locator ++ c.locatorLoop κ maximumEntries.toNat remaining locator.length index
            step.toNat) := by
  induction remaining with
  | zero =>
      intro fuel index locator step _ hsize hfuel _
      obtain ⟨fuel, rfl⟩ := Nat.exists_eq_succ_of_ne_zero (Nat.ne_of_gt hfuel)
      rw [locatorWhile, if_neg (by omega), locatorLoop, List.append_nil]
  | succ remaining ih =>
      intro fuel index locator step hi hsize hfuel hroom
      obtain ⟨fuel, rfl⟩ := Nat.exists_eq_succ_of_ne_zero (show fuel ≠ 0 by omega)
      have hlength : (locator ++ [c.entry κ index]).length = locator.length + 1 :=
        List.length_append
      rw [locatorWhile_succ, if_pos (by omega), locatorLoop_succ]
      split
      · rfl
      rename_i hpos
      have hheight := hroom.resolve_left hpos
      split
      · rw [ih h.nonempty (by omega) (by omega) (Or.inl rfl), hlength, List.append_assoc]
        rfl
      have hnext := h.ancestor_lt hi step.toNat
      have hlower := h.height_ancestor step.toNat hi
      by_cases hroot : c.ancestor step.toNat index = 0
      · rw [ih hnext (by omega) (by omega) (Or.inl hroot), hlength, hroot, List.append_assoc,
          locatorLoop_root _ _ _ _
            (if locator.length + 1 ≥ 10 ∧ step.toNat ≤ maximumEntries.toNat then
            step.toNat * 2 else step.toNat)]
        rfl
      · have hup := h.height_pos (Nat.pos_of_ne_zero hroot) hnext
        have hdouble : (step * 2).toNat = step.toNat * 2 := by
          rw [UInt64.toNat_mul]
          show step.toNat * 2 % 2 ^ 64 = _
          omega
        have hstep : (if locator.length + 1 ≥ 10 ∧ step ≤ maximumEntries then step * 2
              else step).toNat
            = if locator.length + 1 ≥ 10 ∧ step.toNat ≤ maximumEntries.toNat then step.toNat * 2
              else step.toNat := by
          rw [apply_ite UInt64.toNat, hdouble]
          rfl
        rw [ih hnext (by omega) (by omega) (Or.inr ?_), hlength, hstep, List.append_assoc]
        · rfl
        · rw [hstep]
          split
          · omega
          · omega

end Tree

theorem Tree.blockLocator_eq (h : c.Tree κ chainId) {i : Nat} (hi : i < c.storedBlocks.length)
    (maximumEntries : Nat) :
    c.blockLocator κ ((c.block i).id κ) maximumEntries
      = c.locatorLoop κ maximumEntries maximumEntries 0 i 1 := by
  rw [blockLocator, (h.index _ i).mpr ⟨hi, rfl⟩]

theorem Tree.blockLocator_head (h : c.Tree κ chainId) {i : Nat} (hi : i < c.storedBlocks.length)
    (maximumEntries : Nat) :
    ∃ rest, c.blockLocator κ ((c.block i).id κ) (maximumEntries + 1) = c.entry κ i :: rest := by
  rw [h.blockLocator_eq hi, locatorLoop_succ]
  split
  · exact ⟨[], rfl⟩
  split
  · exact ⟨_, rfl⟩
  · exact ⟨_, rfl⟩

/-- `block_locator` returns, whatever the start and the bound, what the exact loop says. -/
theorem Tree.blockLocatorWhile_eq (h : c.Tree κ chainId) (start : Hash256)
    {maximumEntries : UInt64} {fuel : Nat} (hfuel : maximumEntries.toNat < fuel) :
    c.blockLocatorWhile κ start maximumEntries fuel
      = some (c.blockLocator κ start maximumEntries.toNat) := by
  rw [blockLocatorWhile, blockLocator]
  cases hindex : c.indexById[start]? with
  | none => rfl
  | some index =>
      obtain ⟨hi, -⟩ := (h.index start index).mp hindex
      dsimp only
      split
      · rename_i hzero
        rw [hzero]
        rfl
      · have hheight := (c.block index).height.toNat_lt
        rw [h.locatorWhile_eq maximumEntries.toNat hi (Nat.zero_add _) hfuel (Or.inr ?_)]
        · rfl
        · show (c.block index).height.toNat + 1 ≤ 2 ^ 64
          omega

end Blockchain

end BBC
