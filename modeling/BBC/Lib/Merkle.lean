/-
# `Merkle` — hash trees whose odd levels repeat their last entry

`up node` turns one level into the next: neighbours are combined, and a last entry
without a neighbour is combined with itself.

    a b c d e   ↦   (a b) (c d) (e e)

Repeating makes two different levels agree above: `a b c` and `a b c c` do.  It is
the only way they can.  Where no level has two equal entries and `node` has no
collision on the pairs that are combined, one root means that one list is a level
of the tree over the other (`level_or_level`).
-/
import Mathlib.Data.List.Nodup
import Mathlib.Data.Set.Function

namespace Merkle

variable {α : Type*}

/-- The pairs that are combined on one level. -/
def paired : List α → List (α × α)
  | [] => []
  | [a] => [(a, a)]
  | a :: b :: rest => (a, b) :: paired rest

/-- The next level. -/
def up (node : α → α → α) (level : List α) : List α :=
  (paired level).map fun p => node p.1 p.2

theorem sublist_paired : ∀ l : List α, ((paired l).map Prod.fst).Sublist l
  | [] => List.Sublist.slnil
  | [_] => List.Sublist.refl _
  | a :: b :: rest => (List.Sublist.cons b (sublist_paired rest)).cons_cons a

theorem nodup_paired {l : List α} (h : l.Nodup) : (paired l).Nodup :=
  List.Nodup.of_map Prod.fst ((sublist_paired l).nodup h)

theorem length_paired : ∀ l : List α, (paired l).length = (l.length + 1) / 2
  | [] => by simp [paired]
  | [_] => by simp [paired]
  | a :: b :: rest => by
      rw [paired, List.length_cons, length_paired rest, List.length_cons, List.length_cons]
      omega

/-- Mapping is injective on lists whose entries it tells apart. -/
theorem eq_of_map_eq {β γ : Type*} {f : β → γ} :
    ∀ {l m : List β}, (∀ x ∈ l, ∀ y ∈ m, f x = f y → x = y) → l.map f = m.map f → l = m
  | [], [], _, _ => rfl
  | [], _ :: _, _, h => by cases h
  | _ :: _, [], _, h => by cases h
  | x :: l, y :: m, hf, h => by
      obtain ⟨hhead, htail⟩ := List.cons.inj h
      have hxy := hf x List.mem_cons_self y List.mem_cons_self hhead
      have ih := eq_of_map_eq
        (fun a ha b hb => hf a (List.mem_cons_of_mem x ha) b (List.mem_cons_of_mem y hb)) htail
      rw [hxy, ih]

/-- Two entries that stand in one pair stood side by side. -/
theorem eq_of_paired_eq : ∀ {l m : List α}, l.Nodup → m.Nodup → paired l = paired m → l = m
  | [], [], _, _, _ => rfl
  | [], [_], _, _, h => by cases h
  | [], _ :: _ :: _, _, _, h => by cases h
  | [_], [], _, _, h => by cases h
  | [a], [b], _, _, h => by
      cases h
      rfl
  | [a], b :: c :: rest, _, hm, h => by
      -- a repeated last entry cannot pass for two entries
      obtain ⟨hpair, -⟩ := List.cons.inj h
      obtain ⟨rfl, rfl⟩ := Prod.mk.inj hpair
      exact absurd List.mem_cons_self (List.nodup_cons.mp hm).1
  | _ :: _ :: _, [], _, _, h => by cases h
  | b :: c :: rest, [a], hl, _, h => by
      obtain ⟨hpair, -⟩ := List.cons.inj h
      obtain ⟨rfl, rfl⟩ := Prod.mk.inj hpair
      exact absurd List.mem_cons_self (List.nodup_cons.mp hl).1
  | a :: b :: rest, c :: d :: tail, hl, hm, h => by
      obtain ⟨hpair, hrest⟩ := List.cons.inj h
      obtain ⟨rfl, rfl⟩ := Prod.mk.inj hpair
      have ih := eq_of_paired_eq (List.nodup_cons.mp (List.nodup_cons.mp hl).2).2
        (List.nodup_cons.mp (List.nodup_cons.mp hm).2).2 hrest
      rw [ih]

/-! ## Levels -/

variable (node : α → α → α)

/-- `Level l m`: `m` is `l` or a level above it; the climb stops at a single entry. -/
inductive Level : List α → List α → Prop
  | refl (l : List α) : Level l l
  | climb {l m : List α} : 1 < l.length → Level (up node l) m → Level l m

/-- The pairs that are combined on the way from `l` to its root. -/
def combined (l : List α) : Set (α × α) := {p | ∃ m, Level node l m ∧ 1 < m.length ∧ p ∈ paired m}

variable {node}

theorem paired_subset_combined {l : List α} (h : 1 < l.length) {p : α × α} (hp : p ∈ paired l) :
    p ∈ combined node l :=
  ⟨l, .refl l, h, hp⟩

theorem combined_up_subset (node : α → α → α) {l : List α} (h : 1 < l.length) :
    combined node (up node l) ⊆ combined node l := by
  rintro p ⟨m, hm, hlen, hp⟩
  exact ⟨m, .climb h hm, hlen, hp⟩

/-- Everything above the first level is combined from a pair. -/
theorem Level.eq_or_combined {l m : List α} (h : Level node l m) :
    l = m ∨ ∀ x ∈ m, ∃ p ∈ combined node l, node p.1 p.2 = x := by
  induction h with
  | refl l => exact Or.inl rfl
  | @climb l m hlen _ ih =>
      refine Or.inr ?_
      rcases ih with rfl | ih
      · intro x hx
        obtain ⟨p, hp, rfl⟩ := List.mem_map.mp hx
        exact ⟨p, paired_subset_combined hlen hp, rfl⟩
      · intro x hx
        obtain ⟨p, hp, rfl⟩ := ih x hx
        exact ⟨p, combined_up_subset node hlen hp, rfl⟩

/-- A level of two or more shrinks and never vanishes. -/
theorem length_up (node : α → α → α) {l : List α} (h : 1 < l.length) :
    0 < (up node l).length ∧ (up node l).length < l.length := by
  rw [up, List.length_map, length_paired]
  omega

section
variable {l m : List α}
  (hinj : Set.InjOn (fun p : α × α => node p.1 p.2) (combined node l ∪ combined node m))

include hinj

theorem nodup_up (hl : l.Nodup) (hlen : 1 < l.length) : (up node l).Nodup := by
  refine List.Nodup.map_on ?_ (nodup_paired hl)
  intro p hp q hq heq
  exact hinj (Or.inl (paired_subset_combined hlen hp)) (Or.inl (paired_subset_combined hlen hq)) heq

theorem eq_of_up_eq (hl : l.Nodup) (hm : m.Nodup) (hlen : 1 < l.length) (hmlen : 1 < m.length)
    (h : up node l = up node m) : l = m := by
  refine eq_of_paired_eq hl hm (eq_of_map_eq ?_ h)
  intro p hp q hq heq
  exact hinj (Or.inl (paired_subset_combined hlen hp))
    (Or.inr (paired_subset_combined hmlen hq)) heq

end

/-- Equal levels above come from the same level below. -/
theorem Level.down {l m : List α} (hm : m.Nodup) (hmlen : 1 < m.length) {top : List α}
    (h : Level node l top) :
    ∀ {k : List α}, l = up node k → top = up node m → k.Nodup → 1 < k.length →
      Set.InjOn (fun p : α × α => node p.1 p.2) (combined node k ∪ combined node m) →
      Level node k m := by
  induction h with
  | refl l =>
      intro k hl htop hk hlen hinj
      rw [eq_of_up_eq hinj hk hm hlen hmlen (hl.symm.trans htop)]
      exact .refl m
  | @climb l top hllen _ ih =>
      intro k hl htop hk hlen hinj
      subst hl
      refine .climb hlen (ih rfl htop (nodup_up hinj hk hlen) hllen ?_)
      exact hinj.mono (Set.union_subset_union_left _ (combined_up_subset node hlen))

/-- Two lists with one root: one of them is a level of the tree over the other. -/
theorem level_or_level {l : List α} {root : α} (h : Level node l [root]) :
    ∀ {m : List α}, Level node m [root] → l.Nodup → m.Nodup →
      Set.InjOn (fun p : α × α => node p.1 p.2) (combined node l ∪ combined node m) →
      Level node l m ∨ Level node m l := by
  generalize htop : [root] = top at h
  induction h with
  | refl l =>
      intro m hm _ _ _
      subst htop
      exact Or.inr hm
  | @climb l top hlen hup ih =>
      intro m hm hl hmnodup hinj
      subst htop
      cases hm with
      | refl => exact Or.inl (.climb hlen hup)
      | climb hmlen hmup =>
          have hinj' := Set.union_comm (combined node l) _ ▸ hinj
          have hleft := combined_up_subset node hlen
          have hbelow := Set.union_subset_union hleft (combined_up_subset node hmlen)
          rcases ih rfl hmup (nodup_up hinj hl hlen) (nodup_up hinj' hmnodup hmlen)
            (hinj.mono hbelow) with hlevel | hlevel
          · exact Or.inl (hlevel.down hmnodup hmlen rfl rfl hl hlen hinj)
          · exact Or.inr (hlevel.down hl hlen rfl rfl hmnodup hmlen hinj')

end Merkle
