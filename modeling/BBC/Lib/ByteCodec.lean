/-
# `BBC.Lib.ByteCodec` — little-endian integers and fields at fixed offsets

A byte layout in the style of a C++ `append_uNN_le` / `read_uNN_le` pair: an
encoder that pushes fields one after the other, and a decoder that reads each
field back at a constant offset.  Nothing here names a particular format.

Three notions carry everything:

    leBytes n v        the `n` low bytes of `v`, least significant first
    leValue bs         the number those bytes spell (`|=` of shifted bytes)
    subspan l off n    the window of `n` elements starting at `off`

and two facts about them: `leValue` inverts `leBytes` below `2 ^ (8 * n)`, and a
window placed exactly over one segment of a layout reads that segment.  A layout
is walked from the front: `l.drop off = x ++ post` says that segment `x` stands
at `off`, the `…_of_drop` lemmas read it, and `drop_of_drop` moves past it.
-/
import Mathlib.Data.Vector.Basic

namespace ByteCodec

/-! ## Little-endian integers -/

/-- The `n` low bytes of `v`, least significant first. -/
def leBytes : Nat → Nat → List UInt8
  | 0, _ => []
  | n + 1, v => UInt8.ofNat (v &&& 0xFF) :: leBytes n (v >>> 8)

/-- The number spelled by a little-endian byte string: every byte is shifted
to its place and or-ed in. -/
def leValue : List UInt8 → Nat
  | [] => 0
  | b :: bs => b.toNat ||| (leValue bs <<< 8)

@[simp] theorem length_leBytes : ∀ (n v : Nat), (leBytes n v).length = n
  | 0, _ => rfl
  | n + 1, v => by simp [leBytes, length_leBytes n]

/-- The bytes do not overlap, so or-ing them in is adding them. -/
theorem leValue_cons (b : UInt8) (bs : List UInt8) :
    leValue (b :: bs) = b.toNat + 256 * leValue bs := by
  have hb : b.toNat < 2 ^ 8 := b.toNat_lt
  have hor := Nat.shiftLeft_add_eq_or_of_lt hb (leValue bs)
  rw [leValue, Nat.or_comm, ← hor, Nat.shiftLeft_eq]
  omega

theorem leValue_leBytes : ∀ (n v : Nat), v < 2 ^ (8 * n) → leValue (leBytes n v) = v
  | 0, v, h => by simp at h; simp [leBytes, leValue, h]
  | n + 1, v, h => by
      have hpow : 2 ^ (8 * (n + 1)) = 2 ^ (8 * n) * 256 := by
        rw [show 8 * (n + 1) = 8 * n + 8 by omega, Nat.pow_add]
      have hdiv : v / 2 ^ 8 < 2 ^ (8 * n) := by
        rw [Nat.div_lt_iff_lt_mul (by decide)]
        omega
      have hlow : (UInt8.ofNat (v &&& 0xFF)).toNat = v % 256 := by
        rw [show (0xFF : Nat) = 2 ^ 8 - 1 from rfl, Nat.and_two_pow_sub_one_eq_mod]
        simp
      rw [leBytes, leValue_cons, hlow, Nat.shiftRight_eq_div_pow, leValue_leBytes n _ hdiv]
      omega

theorem leValue_lt : ∀ (bs : List UInt8), leValue bs < 2 ^ (8 * bs.length)
  | [] => by simp [leValue]
  | b :: bs => by
      have hb : b.toNat < 256 := b.toNat_lt
      have ih := leValue_lt bs
      rw [leValue_cons, List.length_cons, show 8 * (bs.length + 1) = 8 * bs.length + 8 by omega,
        Nat.pow_add]
      omega

theorem leBytes_leValue : ∀ (bs : List UInt8), leBytes bs.length (leValue bs) = bs
  | [] => rfl
  | b :: bs => by
      have hb : b.toNat < 256 := b.toNat_lt
      have hlow : (b.toNat + 256 * leValue bs) &&& 0xFF = b.toNat := by
        rw [show (0xFF : Nat) = 2 ^ 8 - 1 from rfl, Nat.and_two_pow_sub_one_eq_mod]
        omega
      have hhigh : (b.toNat + 256 * leValue bs) >>> 8 = leValue bs := by
        rw [Nat.shiftRight_eq_div_pow]
        omega
      rw [leValue_cons, List.length_cons, leBytes, hlow, hhigh, leBytes_leValue bs,
        UInt8.ofNat_toNat]

/-! ## Windows over a byte string -/

/-- The `n` elements of `l` that start at `off`. -/
def subspan {α : Type*} (l : List α) (off n : Nat) : List α := (l.drop off).take n

theorem length_subspan {α : Type*} {l : List α} {off n : Nat} (h : off + n ≤ l.length) :
    (subspan l off n).length = n := by
  simp [subspan]; omega

/-- A window placed exactly over one segment of a layout reads that segment. -/
theorem subspan_of_drop {α : Type*} {l x post : List α} {off n : Nat}
    (h : l.drop off = x ++ post) (hn : x.length = n) : subspan l off n = x := by
  rw [subspan, h, List.take_left' hn]

/-- Past one segment of a layout the next one begins. -/
theorem drop_of_drop {α : Type*} {l x post : List α} {off : Nat} (next : Nat)
    (h : l.drop off = x ++ post) (hn : off + x.length = next) : l.drop next = post := by
  rw [← hn, ← List.drop_drop, h, List.drop_left]

/-- Consecutive windows tile a string: peel one off and the rest follows. -/
theorem subspan_append_drop {α : Type*} (l : List α) (off n : Nat) :
    subspan l off n ++ l.drop (off + n) = l.drop off := by
  rw [subspan, ← List.drop_drop, List.take_append_drop]

/-- The window that ends the string. -/
theorem subspan_eq_drop {α : Type*} {l : List α} {off n : Nat} (h : off + n = l.length) :
    subspan l off n = l.drop off :=
  List.take_of_length_le (by simp; omega)

theorem subspan_one {α : Type*} {l : List α} {off : Nat} (d : α) (h : off < l.length) :
    subspan l off 1 = [l.getD off d] := by
  have hget : l.getD off d = l[off] := by simp [h]
  rw [subspan, List.drop_eq_getElem_cons h, hget]
  rfl

/-- A cut through a concatenation of segments that falls on no boundary falls inside
one of them. -/
theorem take_flatMap_inside {α β : Type*} (f : β → List α) (xs : List β) :
    ∀ {k : Nat}, k < (xs.flatMap f).length →
      (∀ i ≤ xs.length, k ≠ ((xs.take i).flatMap f).length) →
      ∃ (i : Nat) (x : β) (m : Nat), xs[i]? = some x ∧ 0 < m ∧ m < (f x).length ∧
        (xs.flatMap f).take k = (xs.take i).flatMap f ++ (f x).take m := by
  induction xs with
  | nil =>
      intro k hk _
      exact absurd hk (Nat.not_lt_zero k)
  | cons x xs ih =>
      intro k hk hboundary
      rw [List.flatMap_cons, List.length_append] at hk
      have hpos : k ≠ 0 := hboundary 0 (Nat.zero_le _)
      have hfirst : k ≠ (f x).length := by
        have hone := hboundary 1 (by simp)
        simpa using hone
      by_cases hlt : k < (f x).length
      · refine ⟨0, x, k, rfl, by omega, hlt, ?_⟩
        rw [List.flatMap_cons, List.take_append_of_le_length (Nat.le_of_lt hlt)]
        rfl
      · have hrest : ∀ i ≤ xs.length, k - (f x).length ≠ ((xs.take i).flatMap f).length := by
          intro i hi heq
          refine hboundary (i + 1) (by simpa using hi) ?_
          rw [List.take_succ_cons, List.flatMap_cons, List.length_append]
          omega
        obtain ⟨i, y, m, hy, hm, hm', htake⟩ := ih (by omega) hrest
        refine ⟨i + 1, y, m, hy, hm, hm', ?_⟩
        rw [List.flatMap_cons, List.take_append, htake, List.take_succ_cons, List.flatMap_cons,
          List.append_assoc, List.take_of_length_le (by omega)]

/-- A value read from the `n` elements at `off`; `none` is a read that leaves the string. -/
def inside {α β : Type*} (l : List α) (off n : Nat) (value : β) : Option β :=
  if off + n ≤ l.length then some value else none

theorem inside_eq {α β : Type*} {l : List α} {off n : Nat} (h : off + n ≤ l.length) (value : β) :
    inside l off n value = some value := if_pos h

/-- The little-endian number in the `n` bytes at `off`. -/
def readLe (n : Nat) (l : List UInt8) (off : Nat) : Nat := leValue (subspan l off n)

theorem readLe_of_drop {l post : List UInt8} {off n v : Nat}
    (h : l.drop off = leBytes n v ++ post) (hv : v < 2 ^ (8 * n)) : readLe n l off = v := by
  rw [readLe, subspan_of_drop h (length_leBytes n v), leValue_leBytes n v hv]

theorem leBytes_readLe {l : List UInt8} {off n : Nat} (h : off + n ≤ l.length) :
    leBytes n (readLe n l off) = subspan l off n := by
  have := leBytes_leValue (subspan l off n)
  rwa [length_subspan h] at this

theorem readLe_lt {l : List UInt8} {off n : Nat} (h : off + n ≤ l.length) :
    readLe n l off < 2 ^ (8 * n) := by
  have := leValue_lt (subspan l off n)
  rwa [length_subspan h] at this

/-- The `n` bytes at `off` as a fixed-size array; bytes missing at the end read as zero. -/
def readArray (n : Nat) (l : List UInt8) (off : Nat) : List.Vector UInt8 n :=
  ⟨(l.drop off).takeD n 0, List.takeD_length ..⟩

theorem readArray_of_drop {n : Nat} {l post : List UInt8} {v : List.Vector UInt8 n} {off : Nat}
    (h : l.drop off = v.toList ++ post) : readArray n l off = v := by
  have hv : v.toList.length = n := v.toList_length
  apply Subtype.ext
  show (l.drop off).takeD n 0 = v.toList
  rw [h, List.takeD_eq_take _ (by simp [hv]), List.take_left' hv]

theorem toList_readArray {n : Nat} {l : List UInt8} {off : Nat} (h : off + n ≤ l.length) :
    (readArray n l off).toList = subspan l off n := by
  show (l.drop off).takeD n 0 = (l.drop off).take n
  exact List.takeD_eq_take _ (by simp; omega)

end ByteCodec
