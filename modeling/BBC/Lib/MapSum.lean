/-
# `BBC.Lib.MapSum` — summing a weight over an ordered map

A finite map from keys to values, and a natural weight on values: the total
weight of the map, and how one insertion changes it.  The map is
`Std.ExtTreeMap`, whose equality is equality of lookups; the sum ranges over its
entries in key order, but only the set of entries matters.

`sumBy_insert` is the single fact the rest needs: writing `v` at `k` trades the
old weight at `k` for the new one.  A key that is absent weighs what the default
value weighs, so a default of weight zero makes the map a total function with
finite support.
-/
import Mathlib.Algebra.GroupWithZero.Nat
import Mathlib.Data.Vector.Basic

namespace MapSum

variable {K V : Type} [Ord K] [Std.TransOrd K] [Std.LawfulEqOrd K]

/-- The total weight of the entries. -/
def sumBy (f : V → Nat) (m : Std.ExtTreeMap K V) : Nat := (m.toList.map fun e => f e.2).sum

omit [Std.LawfulEqOrd K] in
@[simp] theorem sumBy_empty (f : V → Nat) : sumBy f (∅ : Std.ExtTreeMap K V) = 0 := by
  rw [sumBy, Std.ExtTreeMap.toList_eq_nil_iff.mpr rfl]
  rfl

theorem nodup_toList (m : Std.ExtTreeMap K V) : m.toList.Nodup :=
  m.distinct_keys_toList.imp fun {a b} hab heq => hab (by rw [heq]; exact Std.ReflOrd.compare_self)

theorem mem_toList {m : Std.ExtTreeMap K V} {k : K} {v : V} :
    (k, v) ∈ m.toList ↔ m[k]? = some v :=
  Std.ExtTreeMap.mem_toList_iff_getElem?_eq_some

omit [Std.LawfulEqOrd K] in
/-- Entries without weight do not count. -/
theorem sumBy_eq_filter (f : V → Nat) (m : Std.ExtTreeMap K V) :
    sumBy f m = ((m.toList.filter fun e => f e.2 ≠ 0).map fun e => f e.2).sum := by
  rw [sumBy]
  induction m.toList with
  | nil => rfl
  | cons e es ih =>
      by_cases he : f e.2 = 0
      · simp [he, ih]
      · simp [he, ih]

/-- An entry with weight is found by its lookup. -/
theorem mem_toList_iff_getD (f : V → Nat) {d : V} (hd : f d = 0) (m : Std.ExtTreeMap K V) (k : K)
    {v : V} (hv : f v ≠ 0) : (k, v) ∈ m.toList ↔ m.getD k d = v := by
  rw [mem_toList, Std.ExtTreeMap.getD_eq_getD_getElem?]
  cases m[k]? with
  | none =>
      constructor
      · intro h
        cases h
      · rintro rfl
        exact absurd hd hv
  | some w =>
      rw [Option.some.injEq]
      exact Iff.rfl

/-- The total depends on the lookups alone. -/
theorem sumBy_congr (f : V → Nat) {d : V} (hd : f d = 0) {m m' : Std.ExtTreeMap K V}
    (h : ∀ k, m.getD k d = m'.getD k d) : sumBy f m = sumBy f m' := by
  have hperm : (m.toList.filter fun e => f e.2 ≠ 0).Perm
      (m'.toList.filter fun e => f e.2 ≠ 0) := by
    refine (List.perm_ext_iff_of_nodup ((nodup_toList _).filter _)
      ((nodup_toList _).filter _)).mpr ?_
    rintro ⟨k, v⟩
    simp only [List.mem_filter, decide_eq_true_eq]
    refine and_congr_left fun hv => ?_
    rw [mem_toList_iff_getD f hd m k hv, mem_toList_iff_getD f hd m' k hv, h k]
  rw [sumBy_eq_filter, sumBy_eq_filter, (hperm.map _).sum_eq]

variable [DecidableEq K]

theorem getElem?_insert (m : Std.ExtTreeMap K V) (k a : K) (v : V) :
    (m.insert k v)[a]? = if k = a then some v else m[a]? := by
  simp only [Std.ExtTreeMap.getElem?_insert, Std.LawfulEqCmp.compare_eq_iff_eq]

theorem getD_insert (m : Std.ExtTreeMap K V) (k a : K) (v d : V) :
    (m.insert k v).getD a d = if k = a then v else m.getD a d := by
  simp only [Std.ExtTreeMap.getD_insert, Std.LawfulEqCmp.compare_eq_iff_eq]

theorem getElem?_insertIfNew {m : Std.ExtTreeMap K V} {k : K} (h : m[k]? = none) (a : K) (v : V) :
    (m.insertIfNew k v)[a]? = if k = a then some v else m[a]? := by
  have hk : ¬ k ∈ m := by
    rw [Std.ExtTreeMap.mem_iff_isSome_getElem?, h]
    exact Bool.false_ne_true
  simp only [Std.ExtTreeMap.getElem?_insertIfNew, Std.LawfulEqCmp.compare_eq_iff_eq, hk,
    not_false_eq_true, and_true]

/-- The entries at other keys are untouched by a write at `k`. -/
theorem filter_insert_perm (m : Std.ExtTreeMap K V) (k : K) (v : V) :
    ((m.insert k v).toList.filter fun e => e.1 ≠ k).Perm (m.toList.filter fun e => e.1 ≠ k) := by
  refine (List.perm_ext_iff_of_nodup ((nodup_toList _).filter _) ((nodup_toList _).filter _)).mpr ?_
  rintro ⟨a, w⟩
  simp only [List.mem_filter, mem_toList, getElem?_insert, decide_eq_true_eq]
  constructor
  · rintro ⟨hw, ha⟩
    exact ⟨by rwa [if_neg (Ne.symm ha)] at hw, ha⟩
  · rintro ⟨hw, ha⟩
    exact ⟨by rwa [if_neg (Ne.symm ha)], ha⟩

/-- One key's share of the total. -/
theorem sumBy_eq_add (f : V → Nat) {d : V} (hd : f d = 0) (m : Std.ExtTreeMap K V) (k : K) :
    sumBy f m = f (m.getD k d) + ((m.toList.filter fun e => e.1 ≠ k).map fun e => f e.2).sum := by
  rw [Std.ExtTreeMap.getD_eq_getD_getElem?]
  cases hk : m[k]? with
  | none =>
      have hall : m.toList.filter (fun e => e.1 ≠ k) = m.toList := by
        refine List.filter_eq_self.mpr ?_
        rintro ⟨a, w⟩ hmem
        have ha : m[a]? = some w := mem_toList.mp hmem
        have hne : a ≠ k := by
          rintro rfl
          rw [hk] at ha
          cases ha
        simpa using hne
      rw [hall]
      simp [sumBy, hd]
  | some w =>
      have hnodup : ((k, w) :: m.toList.filter fun e => e.1 ≠ k).Nodup := by
        refine List.nodup_cons.mpr ⟨?_, (nodup_toList m).filter _⟩
        simp
      have hperm : m.toList.Perm ((k, w) :: m.toList.filter fun e => e.1 ≠ k) := by
        refine (List.perm_ext_iff_of_nodup (nodup_toList m) hnodup).mpr ?_
        rintro ⟨a, x⟩
        simp only [List.mem_cons, List.mem_filter, mem_toList, decide_eq_true_eq, Prod.mk.injEq]
        constructor
        · intro hx
          by_cases ha : a = k
          · subst ha
            rw [hk] at hx
            exact Or.inl ⟨rfl, (Option.some.inj hx).symm⟩
          · exact Or.inr ⟨hx, ha⟩
        · rintro (⟨rfl, rfl⟩ | ⟨hx, -⟩)
          · exact hk
          · exact hx
      rw [sumBy, (hperm.map _).sum_eq]
      simp

/-- Writing `v` at `k` trades the old weight at `k` for the new one. -/
theorem sumBy_insert (f : V → Nat) {d : V} (hd : f d = 0) (m : Std.ExtTreeMap K V) (k : K) (v : V) :
    sumBy f (m.insert k v) + f (m.getD k d) = sumBy f m + f v := by
  have hnew := sumBy_eq_add f hd (m.insert k v) k
  have hold := sumBy_eq_add f hd m k
  rw [getD_insert, if_pos rfl, ((filter_insert_perm m k v).map _).sum_eq] at hnew
  omega

/-- No key weighs more than the whole map. -/
theorem le_sumBy (f : V → Nat) {d : V} (hd : f d = 0) (m : Std.ExtTreeMap K V) (k : K) :
    f (m.getD k d) ≤ sumBy f m := by
  have := sumBy_eq_add f hd m k
  omega

end MapSum
