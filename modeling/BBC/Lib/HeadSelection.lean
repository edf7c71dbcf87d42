/-
# `HeadSelection` — taking the best head of several queues

A family of queues `q : K → List α`, one for each key, and a relation `better` on the
entries.  `Picks better n q s` says that `s` is what `n` turns of the greedy rule take
from `q`: each turn removes a head that no other head is better than, and the rule stops
early only when all queues are empty.

Where the entries know their key and `better` tells any two of them apart, the rule has
one outcome (`Picks.unique`), whatever the order in which the heads are looked at.
-/
import Mathlib.Data.List.Basic
import Mathlib.Logic.Function.Basic

namespace HeadSelection

variable {K α : Type*} [DecidableEq K]

/-- The queues without the head of one of them. -/
def pop (q : K → List α) (k : K) : K → List α := Function.update q k (q k).tail

/-- The outcome of `n` turns. -/
inductive Picks (better : α → α → Prop) : Nat → (K → List α) → List α → Prop
  | zero (q : K → List α) : Picks better 0 q []
  | exhausted (n : Nat) {q : K → List α} (empty : ∀ k, q k = []) : Picks better (n + 1) q []
  | pick {n : Nat} {q : K → List α} {k : K} {a : α} {s : List α} (head : (q k).head? = some a)
      (best : ∀ k' b, (q k').head? = some b → ¬ better b a) (rest : Picks better n (pop q k) s) :
      Picks better (n + 1) q (a :: s)

/-- Every entry stands in the queue of its key. -/
def Keyed (key : α → K) (q : K → List α) : Prop := ∀ k, ∀ a ∈ q k, key a = k

variable {better : α → α → Prop} {key : α → K} {q : K → List α} {n : Nat} {s : List α}

theorem pop_self (q : K → List α) (k : K) : pop q k k = (q k).tail := Function.update_self _ _ _

theorem pop_other {k k' : K} (h : k' ≠ k) (q : K → List α) : pop q k k' = q k' :=
  Function.update_of_ne h _ _

theorem mem_of_mem_pop {k k' : K} {a : α} (h : a ∈ pop q k k') : a ∈ q k' := by
  by_cases hk : k' = k
  · subst hk
    rw [pop_self] at h
    exact List.mem_of_mem_tail h
  · rw [pop_other hk] at h
    exact h

theorem Keyed.pop (h : Keyed key q) (k : K) : Keyed key (pop q k) :=
  fun k' a ha => h k' a (mem_of_mem_pop ha)

theorem cons_tail_of_head {l : List α} {a : α} (h : l.head? = some a) : l = a :: l.tail :=
  (List.cons_head?_tail h).symm

/-! ## What the outcome is, key by key -/

/-- Each key contributes an initial piece of its queue. -/
theorem Picks.filter_prefix (hp : Picks better n q s) (h : Keyed key q) (k : K) :
    (s.filter fun a => key a = k) <+: q k := by
  induction hp with
  | zero q => exact List.nil_prefix
  | exhausted n empty => exact List.nil_prefix
  | @pick n q k' a s head best rest ih =>
      have hq := cons_tail_of_head head
      have ha : key a = k' := h k' a (List.mem_of_head? head)
      have hrest := ih (h.pop k')
      by_cases hk : k = k'
      · subst hk
        rw [pop_self] at hrest
        rw [List.filter_cons_of_pos (by simpa using ha), hq]
        exact (List.prefix_cons_inj a).mpr hrest
      · rw [pop_other hk] at hrest
        rw [List.filter_cons_of_neg (by rw [ha]; simpa using Ne.symm hk)]
        exact hrest

/-- An outcome that is shorter than the number of turns has emptied the queues. -/
theorem Picks.filter_eq (hp : Picks better n q s) (h : Keyed key q)
    (hshort : s.length < n) (k : K) :
    (s.filter fun a => key a = k) = q k := by
  induction hp with
  | zero q => exact absurd hshort (Nat.not_lt_zero _)
  | exhausted n empty => exact (empty k).symm
  | @pick n q k' a s head best rest ih =>
      have hq := cons_tail_of_head head
      have ha : key a = k' := h k' a (List.mem_of_head? head)
      have hrest := ih (h.pop k') (Nat.lt_of_succ_lt_succ hshort)
      by_cases hk : k = k'
      · subst hk
        rw [pop_self] at hrest
        rw [List.filter_cons_of_pos (by simpa using ha), hrest]
        exact hq.symm
      · rw [pop_other hk] at hrest
        rw [List.filter_cons_of_neg (by rw [ha]; simpa using Ne.symm hk), hrest]

theorem Picks.length_le (hp : Picks better n q s) : s.length ≤ n := by
  induction hp with
  | zero q => exact Nat.le_refl _
  | exhausted n empty => exact Nat.zero_le _
  | pick head best rest ih => exact Nat.succ_le_succ ih

/-- The head of a queue after some picks. -/
def next (key : α → K) (q : K → List α) (taken : List α) (k : K) : Option α :=
  (q k)[(taken.filter fun a => key a = k).length]?

theorem next_nil (key : α → K) (q : K → List α) (k : K) : next key q [] k = (q k).head? :=
  List.head?_eq_getElem?.symm

/-- A head that has been taken is gone from its queue. -/
theorem next_cons {a : α} {k : K} (head : (q k).head? = some a) (ha : key a = k) (taken : List α)
    (k' : K) : next key q (a :: taken) k' = next key (pop q k) taken k' := by
  rw [next, next]
  by_cases hk : k' = k
  · subst hk
    rw [List.filter_cons_of_pos (by simpa using ha), pop_self, cons_tail_of_head head]
    rfl
  · rw [List.filter_cons_of_neg (by rw [ha]; simpa using Ne.symm hk), pop_other hk]

/-- Every entry of the outcome is the next one of its key, and no next entry of any key
is better. -/
theorem Picks.best (hp : Picks better n q s) (h : Keyed key q) :
    ∀ (i : Nat) (hi : i < s.length), next key q (s.take i) (key s[i]) = some s[i] ∧
      ∀ k b, next key q (s.take i) k = some b → ¬ better b s[i] := by
  induction hp with
  | zero q => intro i hi; exact absurd hi (Nat.not_lt_zero _)
  | exhausted n empty => intro i hi; exact absurd hi (Nat.not_lt_zero _)
  | @pick n q k a s head best rest ih =>
      intro i hi
      have ha : key a = k := h k a (List.mem_of_head? head)
      cases i with
      | zero =>
          simp only [List.take_zero, List.getElem_cons_zero, next_nil]
          exact ⟨by rw [ha]; exact head, best⟩
      | succ i =>
          simp only [List.take_succ_cons, List.getElem_cons_succ, next_cons head ha]
          exact ih (h.pop k) i (Nat.lt_of_succ_lt_succ hi)

/-! ## The outcome is determined -/

/-- Two entries neither of which is better are one entry. -/
def Decisive (better : α → α → Prop) (q : K → List α) : Prop :=
  ∀ k, ∀ a ∈ q k, ∀ k', ∀ b ∈ q k', ¬ better a b → ¬ better b a → a = b

theorem Decisive.pop (h : Decisive better q) (k : K) : Decisive better (pop q k) :=
  fun i a ha j b hb => h i a (mem_of_mem_pop ha) j b (mem_of_mem_pop hb)

theorem Picks.unique (hp : Picks better n q s) :
    ∀ {s' : List α}, Picks better n q s' → Keyed key q → Decisive better q → s = s' := by
  induction hp with
  | zero q =>
      intro s' hp' _ _
      cases hp'
      rfl
  | exhausted n empty =>
      intro s' hp' _ _
      cases hp' with
      | exhausted _ => rfl
      | pick head =>
          rw [empty] at head
          cases head
  | @pick n q k a s head best rest ih =>
      intro s' hp' hkey hdecisive
      cases hp' with
      | exhausted _ empty =>
          rw [empty] at head
          cases head
      | @pick _ _ k' a' s'' head' best' rest' =>
          have hmem := List.mem_of_head? head
          have hmem' := List.mem_of_head? head'
          have heq : a = a' := hdecisive k a hmem k' a' hmem' (best' k a head) (best k' a' head')
          subst heq
          have hk : k = k' := (hkey k a hmem).symm.trans (hkey k' a hmem')
          subst hk
          rw [ih rest' (hkey.pop k) (hdecisive.pop k)]

end HeadSelection
