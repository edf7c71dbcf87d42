/-
# `BBC.Node.LocatorMatch` — the shape of a locator and where it matches

The requester sends `block_locator` of its cursor, the server answers from the first entry
on its active chain.  The first eleven entries are the last eleven blocks of the cursor's
branch, whatever the limit from twelve on; at twelve the forced move to Genesis comes just
after them.

    distance  0  1  2  …  10  then 12, 16, 24, …  Genesis

So a branch that leaves the server's chain no deeper than that is matched where it leaves it.
-/
import BBC.Chain.ArrivalOrder
import BBC.Chain.Branches
import BBC.Chain.Locator
import BBC.Node.SyncPayload

namespace BBC

open ParentTree

namespace Blockchain

variable {κ : Crypto} {chainId : UInt32} {c : Blockchain}

/-- What `block_locator` returns for the stored block `i`. -/
structure LocatorShape (κ : Crypto) (chainId : UInt32) (c : Blockchain) (i maximumEntries : Nat)
    (locator : List (UInt64 × Hash256)) : Prop where
  length_pos : 1 ≤ locator.length
  length_le : locator.length ≤ maximumEntries
  onBranch : ∀ e ∈ locator, ∃ b ∈ c.branch i, e = (b.height, b.id κ)
  head : locator.head? = some ((c.block i).height, (c.block i).id κ)
  falling : locator.Pairwise fun a b => b.1 < a.1
  last : 2 ≤ maximumEntries ∨ (c.block i).id κ = (genesisBlock κ chainId).id κ →
    locator.getLast? = some (0, (genesisBlock κ chainId).id κ)
  recent : 12 ≤ maximumEntries → ∀ k ≤ 10, ∀ b, (c.branch i).reverse[k]? = some b →
    locator[k]? = some (b.height, b.id κ)

/-- The branch of `i` leaves the chain `blocks` at `b`, its nearest block there. -/
structure ForkPoint (κ : Crypto) (c : Blockchain) (i : Nat) (blocks : List Block) (distance : Nat)
    (b : Block) : Prop where
  ancestor : (c.branch i).reverse[distance]? = some b
  shared : OnChain κ blocks (b.height, b.id κ)
  nearest : ∀ k < distance, ∀ a, (c.branch i).reverse[k]? = some a →
    ¬ OnChain κ blocks (a.height, a.id κ)

theorem Tree.getElem?_reverse_branch (h : c.Tree κ chainId) {i k : Nat} {b : Block}
    (hi : i < c.storedBlocks.length) :
    (c.branch i).reverse[k]? = some b ↔
      k ≤ (c.block i).height.toNat ∧ c.block (c.ancestor k i) = b := by
  rw [branch, ← List.map_reverse, List.getElem?_map]
  constructor
  · intro hb
    obtain ⟨j, hj, rfl⟩ := Option.map_eq_some_iff.mp hb
    obtain ⟨hlt, -⟩ := List.getElem?_eq_some_iff.mp hj
    rw [List.length_reverse, h.length_path hi] at hlt
    have hk : k ≤ (c.block i).height.toNat := Nat.lt_succ_iff.mp hlt
    rw [h.getElem?_reverse_path hi hk, Option.some_inj] at hj
    exact ⟨hk, congrArg c.block hj⟩
  · rintro ⟨hk, rfl⟩
    rw [h.getElem?_reverse_path hi hk]
    rfl

/-- The locator of a stored block has the shape, for every limit but zero. -/
theorem Tree.locatorShape (h : c.Tree κ chainId) {i : Nat} (hi : i < c.storedBlocks.length)
    {maximumEntries : Nat} (hpos : 1 ≤ maximumEntries) :
    LocatorShape κ chainId c i maximumEntries
      (c.blockLocator κ ((c.block i).id κ) maximumEntries) := by
  obtain ⟨rest, hrest⟩ : ∃ rest, c.blockLocator κ ((c.block i).id κ) maximumEntries
      = c.entry κ i :: rest := by
    obtain ⟨m, rfl⟩ := Nat.exists_eq_add_of_le' hpos
    exact h.blockLocator_head hi m
  have hloop := h.blockLocator_eq hi maximumEntries
  have hgenesis : c.entry κ 0 = (0, (genesisBlock κ chainId).id κ) := by
    rw [entry, h.rootBlock]
    rfl
  refine ⟨?_, ?_, ?_, ?_, ?_, ?_, ?_⟩
  · rw [hrest]
    exact Nat.succ_pos _
  · rw [hloop]
    exact length_locatorLoop maximumEntries maximumEntries
  · intro e he
    rw [hloop] at he
    obtain ⟨j, hj, rfl⟩ := h.mem_locatorLoop maximumEntries maximumEntries hi e he
    exact ⟨c.block j, List.mem_map_of_mem hj, rfl⟩
  · rw [hrest]
    rfl
  · rw [hloop]
    exact h.pairwise_locatorLoop maximumEntries maximumEntries hi Nat.one_pos
  · intro hroom
    rw [hloop, ← hgenesis]
    refine h.getLast?_locatorLoop maximumEntries maximumEntries hi rfl ?_
    rcases hroom with htwo | hstart
    · exact Or.inr htwo
    · refine Or.inl ⟨h.id_inj hi h.nonempty ?_, hpos⟩
      rw [hstart, h.rootBlock]
  · intro hmax k hk b hb
    obtain ⟨hheight, rfl⟩ := (h.getElem?_reverse_branch hi).mp hb
    rw [hloop]
    exact h.getElem?_locatorLoop hmax k hi rfl (by omega) hheight (Or.inr rfl)

/-- The server's search stops at the fork point, if that is near. -/
theorem LocatorShape.find_forkPoint {d : Blockchain} {chainId' : UInt32} (hd : d.Inv κ chainId')
    (h : c.Tree κ chainId) {i maximumEntries : Nat} (hi : i < c.storedBlocks.length)
    {locator : List (UInt64 × Hash256)} (hshape : LocatorShape κ chainId c i maximumEntries locator)
    (hmax : 12 ≤ maximumEntries) {distance : Nat} (hnear : distance ≤ 10) {b : Block}
    (hfork : ForkPoint κ c i d.blocks distance b) :
    locator.find? (fun entry => Matches κ d.blocks entry) = some (b.height, b.id κ) := by
  have hat := hshape.recent hmax distance hnear b hfork.ancestor
  obtain ⟨hlt, hget⟩ := List.getElem?_eq_some_iff.mp hat
  rw [List.find?_eq_some_iff_getElem]
  refine ⟨decide_eq_true (hd.matches_iff.mpr hfork.shared), distance, hlt, hget, ?_⟩
  intro k hk
  -- the entries before it are the blocks above the fork
  have hbefore : (c.branch i).reverse[k]? = some (c.block (c.ancestor k i)) := by
    have hheight := ((h.getElem?_reverse_branch hi).mp hfork.ancestor).1
    exact (h.getElem?_reverse_branch hi).mpr ⟨by omega, rfl⟩
  have hentry := hshape.recent hmax k (by omega) _ hbefore
  obtain ⟨hklt, hkget⟩ := List.getElem?_eq_some_iff.mp hentry
  rw [hkget]
  have hmiss := mt hd.matches_iff.mp (hfork.nearest k hk _ hbefore)
  rw [decide_eq_false hmiss]
  rfl

/-- `block_locator` returns for every stored start and every limit but zero, with a locator
of this shape.  From twelve entries on, a server on any reachable chain that the branch
leaves within ten blocks of the start answers from the very block where it leaves. -/
theorem block_locator_shape (κ : Crypto) (chainId : UInt32) (bs : List Block) (start : Hash256)
    (maximumEntries : UInt64) (hstart : (replay κ chainId bs).contains start = true)
    (hpos : 1 ≤ maximumEntries) :
    ∃ i locator, i < (replay κ chainId bs).storedBlocks.length ∧
      ((replay κ chainId bs).block i).id κ = start ∧
      (∀ fuel, maximumEntries.toNat < fuel →
        (replay κ chainId bs).blockLocatorWhile κ start maximumEntries fuel = some locator) ∧
      (replay κ chainId bs).blockLocator κ start maximumEntries.toNat = locator ∧
      LocatorShape κ chainId (replay κ chainId bs) i maximumEntries.toNat locator ∧
      ∀ (chainId' : UInt32) (bs' : List Block) (distance : Nat) (b : Block),
        12 ≤ maximumEntries.toNat → distance ≤ 10 →
        ForkPoint κ (replay κ chainId bs) i (replay κ chainId' bs').blocks distance b →
        locator.find? (fun entry => Matches κ (replay κ chainId' bs').blocks entry)
            = some (b.height, b.id κ) ∧
          ∀ payload, RequestValid payload → requestEntries payload = locator →
            answerGetBlocks κ (replay κ chainId' bs').blocks payload
              = (syncStatusOk, following (replay κ chainId' bs').blocks (b.height, b.id κ)
                  (requestedCount payload)) := by
  have hinv := inv_replay κ chainId bs
  obtain ⟨i, hi, rfl⟩ := hinv.contains_iff.mp hstart
  have hshape := hinv.toTree.locatorShape hi (UInt64.le_iff_toNat_le.mp hpos)
  refine ⟨i, _, hi, rfl, fun fuel hfuel => hinv.toTree.blockLocatorWhile_eq _ hfuel, rfl,
    hshape, ?_⟩
  intro chainId' bs' distance b hmax hnear hfork
  have hfind := hshape.find_forkPoint (inv_replay κ chainId' bs') hinv.toTree hi hmax hnear hfork
  refine ⟨hfind, ?_⟩
  intro payload hvalid hentries
  rw [answerGetBlocks_of_valid hvalid, hentries, hfind]

/-- From the child of the first mined block, asked of a server on the sibling of the first:
they part at Genesis, two blocks down. -/
theorem block_locator_shape_forked :
    ∃ locator, (replay reference 2 [minedFirst, minedChild]).blockLocatorWhile reference
        (minedChild.id reference) 12 13 = some locator ∧
      locator.head? = some (2, minedChild.id reference) ∧
      locator.getLast? = some (0, (genesisBlock reference 2).id reference) ∧
      locator.find? (fun entry => Matches reference
        (replay reference 2 [minedSibling]).blocks entry)
        = some (0, (genesisBlock reference 2).id reference) := by
  have hfacts : (replay reference 2 [minedFirst, minedChild]).contains (minedChild.id reference)
        = true ∧
      2 < (replay reference 2 [minedFirst, minedChild]).storedBlocks.length ∧
      (replay reference 2 [minedFirst, minedChild]).branch 2
        = [genesisBlock reference 2, minedFirst, minedChild] ∧
      Matches reference (replay reference 2 [minedSibling]).blocks
        (0, (genesisBlock reference 2).id reference) ∧
      ¬ Matches reference (replay reference 2 [minedSibling]).blocks
        (minedFirst.height, minedFirst.id reference) ∧
      ¬ Matches reference (replay reference 2 [minedSibling]).blocks
        (minedChild.height, minedChild.id reference) := by
    decide +kernel
  obtain ⟨hstart, hlength, hbranch, hgenesis, hfirst, hchild⟩ := hfacts
  have hinv := inv_replay reference 2 [minedFirst, minedChild]
  have hserver := inv_replay reference 2 [minedSibling]
  have hblock : (replay reference 2 [minedFirst, minedChild]).block 2 = minedChild := by
    have hself := (hinv.toTree.getElem?_reverse_branch (k := 0) hlength).mpr ⟨Nat.zero_le _, rfl⟩
    rw [hbranch] at hself
    exact (Option.some.inj hself).symm
  obtain ⟨i, locator, hi, hid, hloop, -, hshape, hfork⟩ :=
    block_locator_shape reference 2 [minedFirst, minedChild] (minedChild.id reference) 12 hstart
      (by decide)
  obtain rfl : i = 2 := hinv.toTree.id_inj hi hlength (by rw [hid, hblock])
  have hpoint : ForkPoint reference (replay reference 2 [minedFirst, minedChild]) 2
      (replay reference 2 [minedSibling]).blocks 2 (genesisBlock reference 2) := by
    refine ⟨by rw [hbranch]; rfl, hserver.matches_iff.mp hgenesis, ?_⟩
    intro k hk a ha
    rw [hbranch] at ha
    rcases Nat.lt_or_ge k 1 with hzero | hone
    · obtain rfl : k = 0 := by omega
      cases ha
      exact mt hserver.matches_iff.mpr hchild
    · obtain rfl : k = 1 := by omega
      cases ha
      exact mt hserver.matches_iff.mpr hfirst
  refine ⟨locator, hloop 13 (by decide), ?_, hshape.last (Or.inl (by decide)), ?_⟩
  · rw [hshape.head, hblock]
    rfl
  · exact (hfork 2 [minedSibling] 2 _ (by decide) (by decide) hpoint).1

end Blockchain

end BBC
