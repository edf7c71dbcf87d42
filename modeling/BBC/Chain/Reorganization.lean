/-
# `BBC.Chain.Reorganization` — what an accepted `append` reports

The branch switch compares two index paths from Genesis.  A common prefix of two
paths is itself the path of a stored block, the fork point, so the report splits
both active chains there:

    old  =  branch of the fork point  ++  detached
    new  =  branch of the fork point  ++  attached

Blocks stand for their indices because a stored id occurs once, and the fork point
is the deepest one because the source counts equal indices as far as they go.
-/
import BBC.Chain.ArrivalOrder
import BBC.Lib.Merkle

namespace BBC

namespace Blockchain

open ParentTree

variable {κ : Crypto} {chainId : UInt32} {c : Blockchain}

/-! ## The common prefix of two index lists -/

theorem take_commonSize :
    ∀ as bs : List Nat, as.take (commonSize as bs) = bs.take (commonSize as bs)
  | [], bs => by cases bs <;> simp [commonSize]
  | a :: as, [] => by simp [commonSize]
  | a :: as, b :: bs => by
      by_cases hab : a = b
      · subst hab
        simp [commonSize, take_commonSize as bs]
      · simp [commonSize, hab]

theorem prefix_take_commonSize (l : List Nat) :
    ∀ {as bs : List Nat}, l <+: as → l <+: bs → l <+: as.take (commonSize as bs) := by
  induction l with
  | nil => intro as bs _ _; exact List.nil_prefix
  | cons x l ih =>
      intro as bs ha hb
      obtain ⟨as', rfl⟩ := ha
      obtain ⟨bs', rfl⟩ := hb
      simpa [commonSize] using ih (List.prefix_append l as') (List.prefix_append l bs')

/-! ## The fork point -/

namespace Tree

variable (h : c.Tree κ chainId) {i j : Nat}

include h

/-- A list of blocks that two branches start with is a list of indices they start with. -/
theorem prefix_of_prefix_branch (hi : i < c.storedBlocks.length)
    (hj : j < c.storedBlocks.length) {bs : List Block} (hbi : bs <+: c.branch i)
    (hbj : bs <+: c.branch j) :
    ∃ l, l <+: path c.parent i ∧ l <+: path c.parent j ∧ bs = l.map c.block := by
  have hlt : ∀ {i}, i < c.storedBlocks.length → ∀ x ∈ path c.parent i,
      x < c.storedBlocks.length := fun hi x hx =>
    Nat.lt_of_le_of_lt (le_of_mem_path h.descends _ hi x hx) hi
  have hi' : bs = ((path c.parent i).take bs.length).map c.block := by
    rw [List.map_take]
    exact List.prefix_iff_eq_take.mp hbi
  have hj' : bs = ((path c.parent j).take bs.length).map c.block := by
    rw [List.map_take]
    exact List.prefix_iff_eq_take.mp hbj
  have heq : (path c.parent i).take bs.length = (path c.parent j).take bs.length := by
    refine Merkle.eq_of_map_eq ?_ (hi'.symm.trans hj')
    intro x hx y hy hxy
    exact h.id_inj (hlt hi x (List.mem_of_mem_take hx)) (hlt hj y (List.mem_of_mem_take hy))
      (congrArg _ hxy)
  refine ⟨(path c.parent i).take bs.length, List.take_prefix _ _, ?_, hi'⟩
  rw [heq]
  exact List.take_prefix _ _

/-- Two branches part after a stored block, and share nothing beyond it. -/
theorem forkPoint (hi : i < c.storedBlocks.length) (hj : j < c.storedBlocks.length) :
    ∃ k, k ≤ i ∧
      (path c.parent i).take (commonSize (path c.parent i) (path c.parent j)) = path c.parent k ∧
      ∀ bs, bs <+: c.branch i → bs <+: c.branch j → bs <+: c.branch k := by
  have hroot : ∀ {i}, i < c.storedBlocks.length → [0] <+: path c.parent i := by
    intro i hi
    have hstart := (isPath_path h.descends i hi).starts
    cases hp : path c.parent i with
    | nil => rw [hp] at hstart; cases hstart
    | cons x l =>
        rw [hp] at hstart
        cases hstart
        exact List.cons_prefix_cons.mpr ⟨rfl, List.nil_prefix⟩
  have hcommon := prefix_take_commonSize [0] (hroot hi) (hroot hj)
  have hne : (path c.parent i).take (commonSize (path c.parent i) (path c.parent j)) ≠ [] := by
    intro hnil
    rw [hnil] at hcommon
    exact absurd (List.prefix_nil.mp hcommon) (by simp)
  obtain ⟨k, hk⟩ : ∃ k, ((path c.parent i).take
      (commonSize (path c.parent i) (path c.parent j))).getLast? = some k :=
    Option.ne_none_iff_exists'.mp fun hnone => hne (List.getLast?_eq_none_iff.mp hnone)
  have hpath := eq_path_of_prefix h.descends i hi _ k (List.take_prefix _ _) hk
  have hmem : k ∈ path c.parent i := List.mem_of_mem_take (List.mem_of_getLast? hk)
  refine ⟨k, le_of_mem_path h.descends i hi k hmem, hpath, ?_⟩
  intro bs hbi hbj
  obtain ⟨l, hli, hlj, rfl⟩ := h.prefix_of_prefix_branch hi hj hbi hbj
  rw [branch, ← hpath]
  exact (prefix_take_commonSize l hli hlj).map c.block

theorem path_store {b : Block} {p : Nat} {next : ChainState} (hi : i < c.storedBlocks.length) :
    path (c.store κ b p next).parent i = path c.parent i :=
  path_congr h.descends (fun j _ hj => congrArg BlockNode.parentIndex
    (node_store_of_lt κ c b p next (by rw [h.lengthNodes]; exact hj))) i hi

theorem branch_store {b : Block} {p : Nat} {next : ChainState} (hi : i < c.storedBlocks.length) :
    (c.store κ b p next).branch i = c.branch i := by
  rw [branch, branch, h.path_store hi]
  refine List.map_congr_left fun j hj => ?_
  exact block_store_of_lt κ c b p next
    (Nat.lt_of_le_of_lt (le_of_mem_path h.descends i hi j hj) hi)

/-- From the state of a stored block, the rest of a branch leads to the branch's state. -/
theorem state_of_branch_append (hi : i < c.storedBlocks.length) (hj : j < c.storedBlocks.length)
    {bs : List Block} (heq : c.branch j = c.branch i ++ bs) :
    bs.foldlM (applyBlockState κ) (c.node i).state = .ok (c.node j).state := by
  have hlen := h.length_branch hi
  have halong := h.stateAlong_branch j hj
  rw [heq, List.drop_append_of_le_length (by omega), stateAlong, List.foldlM_append,
    ← stateAlong, h.stateAlong_branch i hi] at halong
  exact halong

end Tree

/-! ## The report -/

/-- The active chain has moved from `c` to `c'`, and the two part after the stored
block `k` of `c`. -/
structure Switched (κ : Crypto) (c c' : Blockchain) (r : AppendResult) (k : Nat) : Prop where
  stored : k < c.storedBlocks.length
  old : c.blocks = c.branch k ++ r.detachedBlocks
  new : c'.blocks = c.branch k ++ r.attachedBlocks
  longest : ∀ bs, bs <+: c.blocks → bs <+: c'.blocks → bs <+: c.branch k
  redone : r.attachedBlocks.foldlM (applyBlockState κ) (c.node k).state = .ok c'.state

namespace Inv

variable (h : c.Inv κ chainId) {b : Block} {p : Nat} {next : ChainState}

include h

theorem getLast?_blocks : c.blocks.getLast? = some c.tip := by
  rw [h.blocks_eq_branch, branch, List.getLast?_map, getLast?_path h.descends h.tipIndex_lt,
    h.tip_eq]
  rfl

/-- A heavier block: the branch switch, split at the fork point. -/
theorem switched (ha : c.Accepts κ b p next) (hlt : c.tip.height < b.height) :
    ∃ k, Switched κ c (c.append κ b).1 (c.append κ b).2 k := by
  have htree := h.toTree.store ha h.chainId_tip
  have hn : c.storedBlocks.length < (c.store κ b p next).storedBlocks.length := by
    rw [length_store]
    exact Nat.lt_succ_self _
  have htip := Nat.lt_trans h.tipIndex_lt hn
  have hold : c.blocks = (c.store κ b p next).branch c.tipIndex := by
    rw [h.branch_store h.tipIndex_lt]
    exact h.blocks_eq_branch
  have hindices : c.activeIndices = path (c.store κ b p next).parent c.tipIndex :=
    h.activeIndices.trans (h.path_store h.tipIndex_lt).symm
  obtain ⟨k, hk, hpath, hmax⟩ := htree.forkPoint htip hn
  have hkc : k < c.storedBlocks.length := Nat.lt_of_le_of_lt hk h.tipIndex_lt
  have hpath' := (take_commonSize _ _).symm.trans hpath
  have hbranch : (c.store κ b p next).branch k = c.branch k := h.branch_store hkc
  have hnew : (c.store κ b p next).branch c.storedBlocks.length
      = c.branch k ++ (c.append κ b).2.attachedBlocks := by
    rw [append_of_accepts ha, h.choose_of_lt ha hlt, ← hbranch, branch, branch, ← hpath']
    show _ = _ ++ ((path (c.store κ b p next).parent c.storedBlocks.length).drop
      (commonSize c.activeIndices _)).map (c.store κ b p next).block
    rw [hindices, ← List.map_append, List.take_append_drop]
  have hblocks : (c.append κ b).1.blocks
      = (c.store κ b p next).branch c.storedBlocks.length := by
    rw [append_of_accepts ha, h.choose_of_lt ha hlt]
    rfl
  have hstate : (c.append κ b).1.state
      = ((c.store κ b p next).node c.storedBlocks.length).state := by
    rw [append_of_accepts ha, h.choose_of_lt ha hlt]
    show ((c.store κ b p next).node ((path _ _).getLastD 0)).state = _
    rw [List.getLastD_eq_getLast?, getLast?_path htree.descends hn]
    rfl
  refine ⟨k, hkc, ?_, hblocks.trans hnew, ?_, ?_⟩
  · rw [append_of_accepts ha, h.choose_of_lt ha hlt, hold, ← hbranch, branch, branch, ← hpath]
    show _ = _ ++ (c.activeIndices.drop (commonSize c.activeIndices _)).map
      (c.store κ b p next).block
    rw [hindices, ← List.map_append, List.take_append_drop]
  · intro bs hbs hbs'
    rw [hold] at hbs
    rw [hblocks] at hbs'
    rw [← hbranch]
    exact hmax bs hbs hbs'
  · rw [hstate, ← node_store_of_lt κ c b p next (by rw [h.lengthNodes]; exact hkc)]
    exact htree.state_of_branch_append (Nat.lt_trans hkc hn) hn (hbranch ▸ hnew)

theorem activeChainChanged_append (ha : c.Accepts κ b p next) :
    (c.append κ b).2.activeChainChanged = decide (c.tip.height < b.height) := by
  rw [append_of_accepts ha]
  by_cases hlt : c.tip.height < b.height
  · rw [h.choose_of_lt ha hlt, decide_eq_true hlt]
    rfl
  · rw [h.choose_of_le ha (UInt64.not_lt.mp hlt), decide_eq_false hlt]

theorem blocks_ne_of_changed (ha : c.Accepts κ b p next)
    (hchanged : (c.append κ b).2.activeChainChanged = true) :
    (c.append κ b).1.blocks ≠ c.blocks := by
  rw [h.activeChainChanged_append ha, decide_eq_true_eq] at hchanged
  intro heq
  refine h.ne_tip ha ?_
  rw [← h.tip_of_lt ha hchanged]
  exact congrArg (fun l : List Block => l.getLastD default) heq

theorem reorganized_iff (ha : c.Accepts κ b p next) (hlt : c.tip.height < b.height) :
    (c.append κ b).2.reorganized = true ↔ (c.append κ b).2.detachedBlocks ≠ [] := by
  rw [append_of_accepts ha, h.choose_of_lt ha hlt]
  show decide (commonSize c.activeIndices _ < c.activeIndices.length) = true ↔
    (c.activeIndices.drop (commonSize c.activeIndices _)).map _ ≠ []
  rw [decide_eq_true_iff, Ne, List.map_eq_nil_iff, List.drop_eq_nil_iff, Nat.not_le]

end Inv

theorem Switched.attached {k : Nat} {b : Block} {p : Nat} {next : ChainState}
    (h : c.Inv κ chainId) (ha : c.Accepts κ b p next) (hlt : c.tip.height < b.height)
    (hs : Switched κ c (c.append κ b).1 (c.append κ b).2 k) :
    (c.append κ b).2.attachedBlocks.getLast? = some b ∧
    (c.append κ b).2.attachedBlocks.length = (c.append κ b).2.detachedBlocks.length + 1 := by
  have h' := h.append b
  have hlen := h.length_blocks
  have hlen' := h'.length_blocks
  have hheight := h.height_of_lt ha hlt
  rw [hs.old, List.length_append] at hlen
  rw [hs.new, List.length_append, h.tip_of_lt ha hlt] at hlen'
  have hlength : (c.append κ b).2.attachedBlocks.length
      = (c.append κ b).2.detachedBlocks.length + 1 := by omega
  refine ⟨?_, hlength⟩
  have hlast := h'.getLast?_blocks
  rw [hs.new, h.tip_of_lt ha hlt, List.getLast?_append_of_ne_nil _ ?_] at hlast
  · exact hlast
  · intro hnil
    rw [hnil] at hlength
    cases hlength

/-- What an accepted `append` reports.  When the active chain changed, its old and its
new blocks are one longest common prefix followed by the detached and by the attached
blocks, and the attached ones lead from the state at the end of the prefix to the new
state.  When it did not, there is nothing to report. -/
theorem append_report (κ : Crypto) (chainId : UInt32) (bs : List Block) (b : Block) :
    let c := replay κ chainId bs
    let c' := (c.append κ b).1
    let r := (c.append κ b).2
    r.error = .none →
    (r.activeChainChanged = true ↔ c'.blocks ≠ c.blocks) ∧
    (r.activeChainChanged = true →
      ∃ P : List Block, P.head? = some (genesisBlock κ chainId) ∧
        c.blocks = P ++ r.detachedBlocks ∧ c'.blocks = P ++ r.attachedBlocks ∧
        (∀ Q, Q <+: c.blocks → Q <+: c'.blocks → Q <+: P) ∧
        r.attachedBlocks.getLast? = some b ∧
        r.attachedBlocks.length = r.detachedBlocks.length + 1 ∧
        (r.reorganized = true ↔ r.detachedBlocks ≠ []) ∧
        ∃ i, i < c.storedBlocks.length ∧ P.getLast? = some (c.block i) ∧
          stateAlong κ (P.drop 1) = .ok (c.node i).state ∧
          r.attachedBlocks.foldlM (applyBlockState κ) (c.node i).state = .ok c'.state) ∧
    (r.activeChainChanged = false →
      r.reorganized = false ∧ r.detachedBlocks = [] ∧ r.attachedBlocks = [] ∧
        c'.blocks = c.blocks ∧ c'.state = c.state) := by
  intro c c' r hnone
  have h : c.Inv κ chainId := inv_replay κ chainId bs
  obtain ⟨p, next, ha⟩ := append_error_none_iff.mp hnone
  have hflag := h.activeChainChanged_append ha
  by_cases hlt : c.tip.height < b.height
  · have htrue : r.activeChainChanged = true := hflag.trans (decide_eq_true hlt)
    refine ⟨⟨h.blocks_ne_of_changed ha, fun _ => htrue⟩, fun _ => ?_, fun hfalse => ?_⟩
    · obtain ⟨k, hs⟩ := h.switched ha hlt
      obtain ⟨hlast, hlength⟩ := hs.attached h ha hlt
      have hpath := isPath_path h.descends k hs.stored
      refine ⟨c.branch k, ?_, hs.old, hs.new, hs.longest, hlast, hlength, h.reorganized_iff ha hlt,
        k, hs.stored, ?_, h.stateAlong_branch k hs.stored, hs.redone⟩
      · rw [branch, List.head?_map, hpath.starts, Option.map_some, h.rootBlock]
      · rw [branch, List.getLast?_map, hpath.ends, Option.map_some]
    · rw [htrue] at hfalse
      cases hfalse
  · have hle := UInt64.not_lt.mp hlt
    have hfalse : r.activeChainChanged = false := hflag.trans (decide_eq_false hlt)
    have happend : c.append κ b = (c.store κ b p next, {}) := by
      rw [append_of_accepts ha, h.choose_of_le ha hle]
    have hc' : c' = c.store κ b p next := congrArg Prod.fst happend
    have hr : r = {} := congrArg Prod.snd happend
    rw [hfalse, hc', hr]
    exact ⟨⟨fun hf => absurd hf Bool.false_ne_true, fun hne => absurd rfl hne⟩,
      fun hf => absurd hf Bool.false_ne_true, fun _ => ⟨rfl, rfl, rfl, rfl, rfl⟩⟩

/-- The report of `minedChild` where `minedFirst` came second. -/
def siblingReport : AppendResult :=
  ((replay reference 2 [minedSibling, minedFirst]).append reference minedChild).2

/-- The sibling is detached when the child of the other block of its height arrives. -/
theorem append_report_sibling :
    siblingReport.error = .none ∧
    ∃ P : List Block, P.head? = some (genesisBlock reference 2) ∧
      (replay reference 2 [minedSibling, minedFirst]).blocks = P ++ siblingReport.detachedBlocks ∧
      siblingReport.detachedBlocks ≠ [] := by
  have hreport : siblingReport.error = .none ∧ siblingReport.activeChainChanged = true ∧
      siblingReport.reorganized = true := by decide +kernel
  unfold siblingReport at hreport ⊢
  obtain ⟨hnone, htrue, hmoved⟩ := hreport
  obtain ⟨-, hchanged, -⟩ := append_report reference 2 [minedSibling, minedFirst] minedChild hnone
  obtain ⟨P, hhead, hold, -, -, -, -, hreorganized, -⟩ := hchanged htrue
  exact ⟨hnone, P, hhead, hold, hreorganized.mp hmoved⟩

end Blockchain

end BBC
