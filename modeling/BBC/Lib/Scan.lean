/-
# `Scan` — looking for the first hit, in pieces

A scan tries positions one after the other, up to a number of trials and up to a bound
that ends the range.  It finds the first hit, runs out of positions, or stops with the
first position it has not tried.

    scan n s    trials s, s+1, …, s+n-1, none of them at or past the bound

Scanning `a + b` positions is scanning `a` and going on from where that stopped
(`scan_add`), so a scan in pieces finds what one scan would.
-/
import Mathlib.Data.List.Basic

/-- How a scan ends. -/
inductive Scan where
  | found (position : Nat)
  | exhausted
  | stopped (next : Nat)
  deriving DecidableEq

namespace Scan

/-- At most `n` trials from `s` on; `bound` is the first position out of range. -/
def scan (hit : Nat → Bool) (bound : Nat) : Nat → Nat → Scan
  | 0, s => .stopped s
  | n + 1, s =>
      if hit s then .found s
      else if s + 1 = bound then .exhausted
      else scan hit bound n (s + 1)

/-- What comes after a scan that has stopped. -/
def andThen (r : Scan) (next : Nat → Scan) : Scan :=
  match r with
  | .stopped position => next position
  | .found position => .found position
  | .exhausted => .exhausted

/-- No hit among the positions from `s` to below `t`. -/
def Misses (hit : Nat → Bool) (s t : Nat) : Prop := ∀ k, s ≤ k → k < t → hit k = false

variable {hit : Nat → Bool} {bound s : Nat}

theorem misses_self (hit : Nat → Bool) (s : Nat) : Misses hit s s :=
  fun _ hle hlt => absurd hle (Nat.not_le.mpr hlt)

/-- One miss more at the front. -/
theorem misses_succ {t : Nat} (hmiss : hit s = false) (h : Misses hit (s + 1) t) :
    Misses hit s t := by
  intro k hle hlt
  rcases Nat.eq_or_lt_of_le hle with rfl | hgt
  · exact hmiss
  · exact h k hgt hlt

/-- The three ends, each with what it says about the positions tried. -/
inductive Ended (hit : Nat → Bool) (bound n s : Nat) : Scan → Prop
  | found {m : Nat} (le : s ≤ m) (lt : m < s + n) (inside : m < bound) (meets : hit m = true)
      (before : Misses hit s m) : Ended hit bound n s (.found m)
  | exhausted (some : 0 < n) (reaches : bound ≤ s + n) (none : Misses hit s bound) :
      Ended hit bound n s .exhausted
  | stopped (short : n = 0 ∨ s + n < bound) (none : Misses hit s (s + n)) :
      Ended hit bound n s (.stopped (s + n))

variable (hit) in
theorem ended_scan (n : Nat) :
    ∀ {s : Nat}, s < bound → Ended hit bound n s (scan hit bound n s) := by
  induction n with
  | zero =>
      intro s _
      exact .stopped (Or.inl rfl) (misses_self hit s)
  | succ n ih =>
      intro s hs
      rw [scan]
      split
      · rename_i hmeets
        exact .found (Nat.le_refl s) (by omega) hs hmeets (misses_self hit s)
      rename_i hmiss
      have hmiss : hit s = false := by simpa using hmiss
      split
      · rename_i hlast
        refine .exhausted (Nat.succ_pos n) (by omega) ?_
        rw [← hlast]
        exact misses_succ hmiss (misses_self hit (s + 1))
      rename_i hmore
      have hnext := ih (s := s + 1) (by omega)
      generalize hr : scan hit bound n (s + 1) = r at hnext
      cases hnext with
      | found le lt inside meets before =>
          exact .found (by omega) (by omega) inside meets (misses_succ hmiss before)
      | exhausted _ reaches none =>
          exact .exhausted (Nat.succ_pos n) (by omega) (misses_succ hmiss none)
      | stopped short none =>
          have hsum : s + 1 + n = s + (n + 1) := by omega
          rw [hsum] at none ⊢
          refine .stopped (Or.inr ?_) (misses_succ hmiss none)
          rcases short with rfl | short
          · omega
          · omega

/-- A scan in two pieces. -/
theorem scan_add (a b : Nat) :
    ∀ s, scan hit bound (a + b) s = (scan hit bound a s).andThen (scan hit bound b) := by
  induction a with
  | zero => intro s; rw [Nat.zero_add]; rfl
  | succ a ih =>
      intro s
      rw [Nat.add_right_comm, scan, scan]
      split
      · rfl
      split
      · rfl
      · exact ih (s + 1)

variable (hit) in
/-- There is a hit in reach exactly when one is found. -/
theorem exists_found_iff {n : Nat} (hs : s < bound) :
    (∃ m, scan hit bound n s = .found m) ↔
      ∃ m, s ≤ m ∧ m < s + n ∧ m < bound ∧ hit m = true := by
  have hended := ended_scan hit n hs
  generalize scan hit bound n s = r at hended
  cases hended with
  | found le lt inside meets before =>
      exact ⟨fun _ => ⟨_, le, lt, inside, meets⟩, fun _ => ⟨_, rfl⟩⟩
  | exhausted _ _ none =>
      refine ⟨fun ⟨_, hm⟩ => (nomatch hm), fun ⟨m, hle, _, hinside, hmeets⟩ => ?_⟩
      rw [none m hle hinside] at hmeets
      cases hmeets
  | stopped _ none =>
      refine ⟨fun ⟨_, hm⟩ => (nomatch hm), fun ⟨m, hle, hlt, _, hmeets⟩ => ?_⟩
      rw [none m hle hlt] at hmeets
      cases hmeets

end Scan
