/-
# `ParentTree` — trees stored as an array of parent indices

Node `0` is the root and every other node points at an earlier one.  The path of
a node is what following the pointers finds, read from the root:

    path parent 0 = [0]
    path parent i = path parent (parent i) ++ [i]      (0 < i)

The walk is fuelled, and `i + 1` is always fuel enough (`walk_eq_walk`).  The module
closes with the maximum that an incremental comparison keeps: the first node of
greatest weight (`FirstMax`).
-/
import Mathlib.Data.List.Chain
import Mathlib.Data.Vector.Basic

namespace ParentTree

/-! ## Paths -/

/-- The nodes met from `i` up to the root, `i` first. -/
def walk (parent : Nat → Nat) : Nat → Nat → List Nat
  | 0, _ => []
  | fuel + 1, i => i :: if i = 0 then [] else walk parent fuel (parent i)

/-- The nodes from the root down to `i`. -/
def path (parent : Nat → Nat) (i : Nat) : List Nat := (walk parent (i + 1) i).reverse

/-- Every node but the root, among the first `n`, points at an earlier one. -/
def Descends (parent : Nat → Nat) (n : Nat) : Prop := ∀ i, 0 < i → i < n → parent i < i

variable {parent parent' : Nat → Nat} {n i j : Nat}

/-- Induction along the parent pointers. -/
theorem Descends.induct (h : Descends parent n) {P : Nat → Prop} (root : P 0)
    (step : ∀ i, 0 < i → i < n → P (parent i) → P i) : ∀ i, i < n → P i := by
  intro i
  induction i using Nat.strongRecOn with
  | ind i ih =>
      intro hi
      rcases Nat.eq_zero_or_pos i with rfl | hpos
      · exact root
      · have hlt := h i hpos hi
        exact step i hpos hi (ih _ hlt (by omega))

/-- Any two sufficient amounts of fuel find the same nodes. -/
theorem walk_eq_walk (h : Descends parent n) :
    ∀ i, i < n → ∀ f g : Nat, i < f → i < g → walk parent f i = walk parent g i := by
  refine h.induct ?_ ?_
  · intro f g hf hg
    obtain ⟨f, rfl⟩ : ∃ k, f = k + 1 := ⟨f - 1, by omega⟩
    obtain ⟨g, rfl⟩ : ∃ k, g = k + 1 := ⟨g - 1, by omega⟩
    rfl
  · intro i hpos hi ih f g hf hg
    obtain ⟨f, rfl⟩ : ∃ k, f = k + 1 := ⟨f - 1, by omega⟩
    obtain ⟨g, rfl⟩ : ∃ k, g = k + 1 := ⟨g - 1, by omega⟩
    have hlt := h i hpos hi
    rw [walk, walk, if_neg (by omega), if_neg (by omega), ih f g (by omega) (by omega)]

@[simp] theorem path_zero (parent : Nat → Nat) : path parent 0 = [0] := rfl

theorem path_of_pos (h : Descends parent n) (hpos : 0 < i) (hi : i < n) :
    path parent i = path parent (parent i) ++ [i] := by
  have hlt := h i hpos hi
  have hwalk := walk_eq_walk h (parent i) (by omega) i (parent i + 1) hlt (by omega)
  rw [path, walk, if_neg (by omega), List.reverse_cons, hwalk]
  rfl

/-- A path only reads the pointers below its node. -/
theorem path_congr (h : Descends parent n)
    (heq : ∀ j, 0 < j → j < n → parent' j = parent j) :
    ∀ i, i < n → path parent' i = path parent i := by
  have h' : Descends parent' n := fun j hpos hj => by
    rw [heq j hpos hj]
    exact h j hpos hj
  refine h.induct rfl ?_
  intro i hpos hi ih
  rw [path_of_pos h hpos hi, path_of_pos h' hpos hi, heq i hpos hi, ih]

theorem mem_path_self (h : Descends parent n) (hi : i < n) : i ∈ path parent i := by
  rcases Nat.eq_zero_or_pos i with rfl | hpos
  · simp
  · rw [path_of_pos h hpos hi]
    simp

theorem getLast?_path (h : Descends parent n) (hi : i < n) :
    (path parent i).getLast? = some i := by
  rcases Nat.eq_zero_or_pos i with rfl | hpos
  · rfl
  · rw [path_of_pos h hpos hi, List.getLast?_concat]

theorem le_of_mem_path (h : Descends parent n) :
    ∀ i, i < n → ∀ j ∈ path parent i, j ≤ i := by
  refine h.induct ?_ ?_
  · intro j hj
    simp at hj
    omega
  · intro i hpos hi ih j hj
    rw [path_of_pos h hpos hi, List.mem_append, List.mem_singleton] at hj
    have hlt := h i hpos hi
    rcases hj with hj | rfl
    · have := ih j hj
      omega
    · exact Nat.le_refl _

theorem path_nodup (h : Descends parent n) : ∀ i, i < n → (path parent i).Nodup := by
  refine h.induct (List.nodup_singleton 0) ?_
  intro i hpos hi ih
  have hlt := h i hpos hi
  rw [path_of_pos h hpos hi, ← List.concat_eq_append]
  refine List.Nodup.concat ?_ ih
  intro hmem
  have := le_of_mem_path h _ (by omega) i hmem
  omega

/-- The path of a node on a path is where that path starts. -/
theorem path_eq_append_of_mem (h : Descends parent n) :
    ∀ i, i < n → ∀ j ∈ path parent i, ∃ rest, path parent i = path parent j ++ rest := by
  refine h.induct ?_ ?_
  · intro j hj
    obtain rfl : j = 0 := by simpa using hj
    exact ⟨[], by simp⟩
  · intro i hpos hi ih j hj
    rw [path_of_pos h hpos hi, List.mem_append, List.mem_singleton] at hj
    rcases hj with hj | rfl
    · obtain ⟨rest, hrest⟩ := ih j hj
      exact ⟨rest ++ [i], by rw [path_of_pos h hpos hi, hrest, List.append_assoc]⟩
    · exact ⟨[], by simp⟩

/-- What a path is, without saying how it is found. -/
structure IsPath (parent : Nat → Nat) (i : Nat) (l : List Nat) : Prop where
  starts : l.head? = some 0
  ends : l.getLast? = some i
  linked : l.IsChain fun a b => 0 < b ∧ parent b = a

theorem isPath_path (h : Descends parent n) :
    ∀ i, i < n → IsPath parent i (path parent i) := by
  refine h.induct ⟨rfl, rfl, List.isChain_singleton 0⟩ ?_
  intro i hpos hi ih
  rw [path_of_pos h hpos hi]
  refine ⟨?_, List.getLast?_concat, ?_⟩
  · rw [List.head?_append, ih.starts]
    rfl
  · refine List.isChain_append.mpr ⟨ih.linked, List.isChain_singleton i, ?_⟩
    intro a ha b hb
    rw [ih.ends] at ha
    cases ha
    cases hb
    exact ⟨hpos, rfl⟩

/-- A prefix of a path is the path of the node it ends in. -/
theorem eq_path_of_prefix (h : Descends parent n) :
    ∀ i, i < n → ∀ l j, l <+: path parent i → l.getLast? = some j → l = path parent j := by
  refine h.induct ?_ ?_
  · intro l j hl hj
    rw [path_zero] at hl
    rcases List.prefix_cons_iff.mp hl with rfl | ⟨t, rfl, ht⟩
    · cases hj
    · obtain rfl := List.prefix_nil.mp ht
      cases hj
      rfl
  · intro i hpos hi ih l j hl hj
    rw [path_of_pos h hpos hi] at hl
    rcases List.prefix_concat_iff.mp hl with rfl | hl
    · rw [List.getLast?_concat] at hj
      cases hj
      exact (path_of_pos h hpos hi).symm
    · exact ih l j hl hj

/-- A depth function gives the length of every path. -/
theorem length_path (h : Descends parent n) (depth : Nat → Nat) (root : depth 0 = 0)
    (step : ∀ i, 0 < i → i < n → depth i = depth (parent i) + 1) :
    ∀ i, i < n → (path parent i).length = depth i + 1 := by
  refine h.induct (by simp [root]) ?_
  intro i hpos hi ih
  rw [path_of_pos h hpos hi, List.length_append, ih, step i hpos hi]
  rfl

/-- A path meets the node of each depth at the index of that depth. -/
theorem getElem?_path (h : Descends parent n) (depth : Nat → Nat) (root : depth 0 = 0)
    (step : ∀ i, 0 < i → i < n → depth i = depth (parent i) + 1) (hi : i < n)
    (hj : j ∈ path parent i) : (path parent i)[depth j]? = some j := by
  have hjn : j < n := Nat.lt_of_le_of_lt (le_of_mem_path h i hi j hj) hi
  obtain ⟨rest, hrest⟩ := path_eq_append_of_mem h i hi j hj
  have hlen := length_path h depth root step j hjn
  rw [hrest, List.getElem?_append_left (by omega), ← getLast?_path h hjn,
    List.getLast?_eq_getElem?, hlen]
  rfl

/-! ## The first node of greatest weight -/

/-- `t` is the earliest of the first `n` nodes whose weight no other exceeds. -/
structure FirstMax (weight : Nat → Nat) (n t : Nat) : Prop where
  lt : t < n
  greatest : ∀ i, i < n → weight i ≤ weight t
  earliest : ∀ i, i < t → weight i < weight t

theorem FirstMax.congr {weight weight' : Nat → Nat} {t : Nat} (h : FirstMax weight n t)
    (heq : ∀ i, i < n → weight' i = weight i) : FirstMax weight' n t where
  lt := h.lt
  greatest i hi := by
    rw [heq i hi, heq t h.lt]
    exact h.greatest i hi
  earliest i hi := by
    have ht := h.lt
    rw [heq i (by omega), heq t ht]
    exact h.earliest i hi

/-- A new node that is not heavier leaves the maximum where it is. -/
theorem FirstMax.keep {weight : Nat → Nat} {t : Nat} (h : FirstMax weight n t)
    (hle : weight n ≤ weight t) : FirstMax weight (n + 1) t where
  lt := Nat.lt_succ_of_lt h.lt
  greatest i hi := by
    rcases Nat.eq_or_lt_of_le (Nat.le_of_lt_succ hi) with rfl | hlt
    · exact hle
    · exact h.greatest i hlt
  earliest := h.earliest

/-- A strictly heavier one takes it over. -/
theorem FirstMax.move {weight : Nat → Nat} {t : Nat} (h : FirstMax weight n t)
    (hlt : weight t < weight n) : FirstMax weight (n + 1) n where
  lt := Nat.lt_succ_self n
  greatest i hi := by
    rcases Nat.eq_or_lt_of_le (Nat.le_of_lt_succ hi) with rfl | hlt'
    · exact Nat.le_refl _
    · exact Nat.le_trans (h.greatest i hlt') (Nat.le_of_lt hlt)
  earliest i hi := Nat.lt_of_le_of_lt (h.greatest i hi) hlt

end ParentTree
