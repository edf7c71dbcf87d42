/-
# `Streak` — the longest affordable run of consecutive keys

A list whose keys count up, and a walk along it that takes an entry if its key is
the one expected next and its cost is still within the budget.  The walk skips what
comes before the expected key, and after an entry that is too expensive no later key
is expected any more, so what it takes is one segment of the list:

    keys      3   4   5   6   7          expected: 4
    taken         ×   ×                  (6 is too expensive)

`keep_longest` says that this segment is the longest one of its kind.
-/
import Mathlib.Data.List.Infix
import Mathlib.Data.List.Range
import Mathlib.Algebra.BigOperators.Group.List.Basic
import Mathlib.Algebra.GroupWithZero.Nat

namespace Streak

variable {α : Type*} (key cost : α → Nat)

/-- What the walk takes. -/
def keep : Nat → Nat → List α → List α
  | _, _, [] => []
  | next, budget, x :: xs =>
      if key x = next ∧ cost x ≤ budget then x :: keep (next + 1) (budget - cost x) xs
      else keep next budget xs

/-- A segment of the list whose keys count up from `next` and whose cost is within the
budget. -/
structure Fits (next budget : Nat) (xs run : List α) : Prop where
  segment : run <:+: xs
  keys : run.map key = List.range' next run.length
  within : (run.map cost).sum ≤ budget

variable {key cost} {xs run : List α} {next start budget : Nat}

theorem keep_of_pos {x : α} (hkey : key x = next) (hcost : cost x ≤ budget) :
    keep key cost next budget (x :: xs)
      = x :: keep key cost (next + 1) (budget - cost x) xs :=
  if_pos ⟨hkey, hcost⟩

theorem keep_of_neg {x : α} (h : ¬ (key x = next ∧ cost x ≤ budget)) :
    keep key cost next budget (x :: xs) = keep key cost next budget xs :=
  if_neg h

theorem keep_eq_nil (xs : List α) :
    (∀ x ∈ xs, key x ≠ next) → keep key cost next budget xs = [] := by
  induction xs with
  | nil => intro _; rfl
  | cons x xs ih =>
      intro h
      obtain ⟨hx, hxs⟩ := List.forall_mem_cons.mp h
      rw [keep_of_neg fun hboth => hx hboth.1]
      exact ih hxs

/-- The entries of a counting list. -/
theorem keys_tail {x : α} (h : (x :: xs).map key = List.range' start (x :: xs).length) :
    key x = start ∧ xs.map key = List.range' (start + 1) xs.length := by
  rw [List.map_cons, List.length_cons, List.range'_succ] at h
  exact List.cons.inj h

theorem le_key (h : xs.map key = List.range' start xs.length) : ∀ x ∈ xs, start ≤ key x := by
  intro x hx
  have hmem : key x ∈ xs.map key := List.mem_map_of_mem hx
  rw [h, List.mem_range'_1] at hmem
  exact hmem.1

/-- A run that starts at a key the list does not have is empty. -/
theorem Fits.eq_nil (h : Fits key cost next budget xs run) (hnone : ∀ x ∈ xs, key x ≠ next) :
    run = [] := by
  cases run with
  | nil => rfl
  | cons x run =>
      have hx : x ∈ xs := h.segment.subset List.mem_cons_self
      exact absurd (keys_tail h.keys).1 (hnone x hx)

/-- Where the list starts at the expected key, the walk takes the longest affordable
prefix. -/
theorem keep_prefix (xs : List α) :
    ∀ next budget : Nat, xs.map key = List.range' next xs.length →
      keep key cost next budget xs <+: xs ∧
      (keep key cost next budget xs).map key
        = List.range' next (keep key cost next budget xs).length ∧
      ((keep key cost next budget xs).map cost).sum ≤ budget ∧
      ∀ run, run <+: xs → (run.map cost).sum ≤ budget → run <+: keep key cost next budget xs := by
  induction xs with
  | nil =>
      intro next budget _
      exact ⟨List.nil_prefix, rfl, Nat.zero_le _, fun run hrun _ => hrun⟩
  | cons x xs ih =>
      intro next budget h
      obtain ⟨hkey, hxs⟩ := keys_tail h
      by_cases hcost : cost x ≤ budget
      · obtain ⟨hinit, hkeys, hsum, hlongest⟩ := ih (next + 1) (budget - cost x) hxs
        rw [keep_of_pos hkey hcost]
        refine ⟨List.cons_prefix_cons.mpr ⟨rfl, hinit⟩, ?_, ?_, ?_⟩
        · rw [List.map_cons, List.length_cons, List.range'_succ, hkeys, hkey]
        · rw [List.map_cons, List.sum_cons]
          omega
        · intro run hrun hwithin
          cases run with
          | nil => exact List.nil_prefix
          | cons y run =>
              obtain ⟨rfl, hrest⟩ := List.cons_prefix_cons.mp hrun
              rw [List.map_cons, List.sum_cons] at hwithin
              exact List.cons_prefix_cons.mpr ⟨rfl, hlongest run hrest (by omega)⟩
      · -- no later key is the expected one
        have hlater : ∀ y ∈ xs, key y ≠ next := by
          intro y hy
          have := le_key hxs y hy
          omega
        rw [keep_of_neg fun hboth => hcost hboth.2, keep_eq_nil xs hlater]
        refine ⟨List.nil_prefix, rfl, Nat.zero_le _, ?_⟩
        intro run hrun hwithin
        cases run with
        | nil => exact List.nil_prefix
        | cons y run =>
            obtain ⟨rfl, -⟩ := List.cons_prefix_cons.mp hrun
            rw [List.map_cons, List.sum_cons] at hwithin
            omega

/-- The walk takes the longest affordable run that starts at the expected key. -/
theorem keep_longest (xs : List α) :
    ∀ {start : Nat}, xs.map key = List.range' start xs.length →
      Fits key cost next budget xs (keep key cost next budget xs) ∧
      ∀ run, Fits key cost next budget xs run → run <+: keep key cost next budget xs := by
  induction xs with
  | nil =>
      intro start _
      refine ⟨⟨List.infix_rfl, rfl, Nat.zero_le _⟩, fun run hrun => ?_⟩
      rw [List.infix_nil.mp hrun.segment]
      exact List.nil_prefix
  | cons x xs ih =>
      intro start h
      obtain ⟨hkey, hxs⟩ := keys_tail h
      rcases Nat.lt_trichotomy start next with hlt | rfl | hgt
      · -- before the expected key: `x` belongs to no run
        have hx : key x ≠ next := by omega
        obtain ⟨hfits, hlongest⟩ := ih hxs
        rw [keep_of_neg fun hboth => hx hboth.1]
        refine ⟨⟨List.infix_cons hfits.segment, hfits.keys, hfits.within⟩, ?_⟩
        intro run hrun
        cases run with
        | nil => exact List.nil_prefix
        | cons y run =>
            refine hlongest _ ⟨?_, hrun.keys, hrun.within⟩
            rcases List.infix_cons_iff.mp hrun.segment with hinit | hinner
            · obtain ⟨rfl, -⟩ := List.cons_prefix_cons.mp hinit
              exact absurd (keys_tail hrun.keys).1 hx
            · exact hinner
      · -- at the expected key: a run is a prefix
        obtain ⟨hinit, hkeys, hsum, hlongest⟩ := keep_prefix (x :: xs) start budget h
        refine ⟨⟨hinit.isInfix, hkeys, hsum⟩, ?_⟩
        intro run hrun
        rcases List.infix_cons_iff.mp hrun.segment with hfirst | hinner
        · exact hlongest run hfirst hrun.within
        · have hlater : ∀ y ∈ xs, key y ≠ start := by
            intro y hy
            have := le_key hxs y hy
            omega
          have hempty := Fits.eq_nil ⟨hinner, hrun.keys, hrun.within⟩ hlater
          rw [hempty]
          exact List.nil_prefix
      · have hnone : ∀ y ∈ x :: xs, key y ≠ next := by
          intro y hy
          have := le_key h y hy
          omega
        have hempty : keep key cost next budget (x :: xs) = [] := keep_eq_nil _ hnone
        rw [hempty]
        refine ⟨⟨List.nil_infix, rfl, Nat.zero_le _⟩, fun run hrun => ?_⟩
        rw [hrun.eq_nil hnone]

/-- A list that begins before the expected key, cut where that key stands: the walk takes all
of the rest if the budget covers it. -/
theorem keep_append (done : List α) {rest : List α} (hcost : (rest.map cost).sum ≤ budget) :
    ∀ {start : Nat}, (done ++ rest).map key = List.range' start (done ++ rest).length →
      next = start + done.length → keep key cost next budget (done ++ rest) = rest := by
  induction done with
  | nil =>
      intro start hkeys hnext
      rw [hnext]
      have hboth : keep key cost start budget rest <+: rest ∧ _ :=
        keep_prefix rest start budget hkeys
      exact hboth.1.eq_of_length_le (hboth.2.2.2 rest List.prefix_rfl hcost).length_le
  | cons x done ih =>
      intro start hkeys hnext
      rw [List.length_cons] at hnext
      obtain ⟨hkey, htail⟩ := keys_tail hkeys
      rw [List.cons_append, keep_of_neg (fun hboth => by omega)]
      exact ih htail (by omega)

end Streak
