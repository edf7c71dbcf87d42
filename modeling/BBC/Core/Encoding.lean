/-
# `BBC.Core.Encoding` — the integer fields of every wire and file format

Each translation unit of the source carries its own copy of `append_u16_le`,
`append_u32_le`, `append_u64_le` and of the matching readers.  They are one
family: `leBytes` and `readLe` at two, four and eight bytes.
-/
import BBC.Crypto.Basic

namespace BBC

open ByteCodec

/-- `std::numeric_limits<std::uint64_t>::max()`. -/
@[irreducible] def maxU64 : UInt64 := 0xFFFFFFFFFFFFFFFF

@[simp] theorem maxU64_toNat : maxU64.toNat = 2 ^ 64 - 1 := by
  unfold maxU64
  rfl

/-- The overflow test of the source, `a > max - b`, in exact arithmetic. -/
theorem gt_maxU64_sub (a b : UInt64) : a > maxU64 - b ↔ 2 ^ 64 ≤ a.toNat + b.toNat := by
  have ha := a.toNat_lt
  have hb := b.toNat_lt
  have hle : b ≤ maxU64 := by
    rw [UInt64.le_iff_toNat_le, maxU64_toNat]
    omega
  rw [gt_iff_lt, UInt64.lt_iff_toNat_lt, UInt64.toNat_sub_of_le _ _ hle, maxU64_toNat]
  omega

/-- What is left below the maximum.  Irreducible: the unifier must not compare two
such differences by evaluating them. -/
@[irreducible] def room (a : UInt64) : UInt64 := maxU64 - a

theorem gt_room (a b : UInt64) : a > room b ↔ 2 ^ 64 ≤ a.toNat + b.toNat := by
  unfold room
  exact gt_maxU64_sub a b

theorem add_lt_of_not_gt_room {a b : UInt64} (h : ¬ a > room b) : a.toNat + b.toNat < 2 ^ 64 :=
  not_le.mp (mt (gt_room a b).mpr h)

theorem toNat_add_of_lt {a b : UInt64} (h : a.toNat + b.toNat < 2 ^ 64) :
    (a + b).toNat = a.toNat + b.toNat := by
  rw [UInt64.toNat_add, Nat.mod_eq_of_lt h]

theorem toNat_lt_of_ne_max {a : UInt64} (h : a ≠ maxU64) : a.toNat + 1 < 2 ^ 64 := by
  have ha := a.toNat_lt
  have hne : a.toNat ≠ maxU64.toNat := fun he => h (UInt64.toNat_inj.mp he)
  rw [maxU64_toNat] at hne
  omega

def encodeU16Le (value : UInt16) : Bytes := leBytes 2 value.toNat

def encodeU32Le (value : UInt32) : Bytes := leBytes 4 value.toNat

def encodeU64Le (value : UInt64) : Bytes := leBytes 8 value.toNat

def readU16Le (input : Bytes) (offset : Nat) : UInt16 := UInt16.ofNat (readLe 2 input offset)

def readU32Le (input : Bytes) (offset : Nat) : UInt32 := UInt32.ofNat (readLe 4 input offset)

def readU64Le (input : Bytes) (offset : Nat) : UInt64 := UInt64.ofNat (readLe 8 input offset)

@[simp] theorem length_encodeU16Le (v : UInt16) : (encodeU16Le v).length = 2 := by
  simp [encodeU16Le]

@[simp] theorem length_encodeU32Le (v : UInt32) : (encodeU32Le v).length = 4 := by
  simp [encodeU32Le]

@[simp] theorem length_encodeU64Le (v : UInt64) : (encodeU64Le v).length = 8 := by
  simp [encodeU64Le]

@[simp] theorem length_toList {n : Nat} (a : FixedBytes n) : a.toList.length = n := a.toList_length

theorem readU16Le_of_drop {l post : Bytes} {v : UInt16} {offset : Nat}
    (h : l.drop offset = encodeU16Le v ++ post) : readU16Le l offset = v := by
  rw [readU16Le, readLe_of_drop h v.toNat_lt, UInt16.ofNat_toNat]

theorem readU32Le_of_drop {l post : Bytes} {v : UInt32} {offset : Nat}
    (h : l.drop offset = encodeU32Le v ++ post) : readU32Le l offset = v := by
  rw [readU32Le, readLe_of_drop h v.toNat_lt, UInt32.ofNat_toNat]

theorem readU64Le_of_drop {l post : Bytes} {v : UInt64} {offset : Nat}
    (h : l.drop offset = encodeU64Le v ++ post) : readU64Le l offset = v := by
  rw [readU64Le, readLe_of_drop h v.toNat_lt, UInt64.ofNat_toNat]

theorem encodeU32Le_inj {v w : UInt32} (h : encodeU32Le v = encodeU32Le w) : v = w := by
  have hv : readU32Le (encodeU32Le v) 0 = v :=
    readU32Le_of_drop (List.append_nil (encodeU32Le v)).symm
  rw [← hv, h]
  exact readU32Le_of_drop (List.append_nil (encodeU32Le w)).symm

theorem encodeU64Le_inj {v w : UInt64} (h : encodeU64Le v = encodeU64Le w) : v = w := by
  have hv : readU64Le (encodeU64Le v) 0 = v :=
    readU64Le_of_drop (List.append_nil (encodeU64Le v)).symm
  rw [← hv, h]
  exact readU64Le_of_drop (List.append_nil (encodeU64Le w)).symm

theorem encodeU16Le_readU16Le {l : Bytes} {offset : Nat} (h : offset + 2 ≤ l.length) :
    encodeU16Le (readU16Le l offset) = subspan l offset 2 := by
  rw [encodeU16Le, readU16Le, UInt16.toNat_ofNat_of_lt' (readLe_lt h), leBytes_readLe h]

theorem encodeU32Le_readU32Le {l : Bytes} {offset : Nat} (h : offset + 4 ≤ l.length) :
    encodeU32Le (readU32Le l offset) = subspan l offset 4 := by
  rw [encodeU32Le, readU32Le, UInt32.toNat_ofNat_of_lt' (readLe_lt h), leBytes_readLe h]

theorem encodeU64Le_readU64Le {l : Bytes} {offset : Nat} (h : offset + 8 ≤ l.length) :
    encodeU64Le (readU64Le l offset) = subspan l offset 8 := by
  rw [encodeU64Le, readU64Le, UInt64.toNat_ofNat_of_lt' (readLe_lt h), leBytes_readLe h]

end BBC
