/-
# `BBC.Crypto.Hex` — digits, and addresses as text

`to_upper_hex` and `decode_hex` of `src/crypto/hash.cpp`, and the text of an address in
`src/wallet/address.cpp`.  A text is a string of bytes.  What is written has capital
digits only; what is read may have small ones, so an address has many texts, one of them
with capitals only.
-/
import BBC.Crypto.Basic

namespace BBC

/-- The characters of a literal. -/
def text (s : String) : Bytes := s.toList.map fun c => UInt8.ofNat c.toNat

/-- `"0123456789ABCDEF"` at a nibble. -/
def hexDigit (nibble : Byte) : Byte := (text "0123456789ABCDEF").getD nibble.toNat 0

/-- `to_upper_hex`. -/
def toUpperHex (input : Bytes) : Bytes :=
  input.flatMap fun value : Byte => [hexDigit (value >>> 4), hexDigit (value &&& 0x0F)]

/-- `decode_nibble`. -/
def decodeNibble (value : Byte) : Option Byte :=
  if 48 ≤ value ∧ value ≤ 57 then some (value - 48)
  else if 65 ≤ value ∧ value ≤ 70 then some (value - 65 + 10)
  else if 97 ≤ value ∧ value ≤ 102 then some (value - 97 + 10)
  else none

/-- The loop of `decode_hex`. -/
def decodePairs : Bytes → Option Bytes
  | high :: low :: rest =>
      match decodeNibble high, decodeNibble low with
      | some high, some low => (decodePairs rest).map ((high <<< 4 ||| low) :: ·)
      | _, _ => none
  | _ => some []

/-- `decode_hex` into an array of `size` bytes. -/
def decodeHex (input : Bytes) (size : Nat) : Option Bytes :=
  if input.length ≠ size * 2 then none else decodePairs input

/-- The capital of a digit. -/
def capital (value : Byte) : Byte := if 97 ≤ value ∧ value ≤ 102 then value - 32 else value

/-! ## One digit -/

/-- What holds of the 256 bytes, one after the other. -/
theorem forall_byte {p : Byte → Bool} (h : (List.range 256).all (fun n => p (UInt8.ofNat n)) = true)
    (value : Byte) : p value = true := by
  have hvalue := List.all_eq_true.mp h value.toNat (List.mem_range.mpr value.toNat_lt)
  rwa [UInt8.ofNat_toNat] at hvalue

theorem decodeNibble_hexDigit (value : Byte) :
    decodeNibble (hexDigit (value >>> 4)) = some (value >>> 4) ∧
      decodeNibble (hexDigit (value &&& 0x0F)) = some (value &&& 0x0F) ∧
      (value >>> 4) <<< 4 ||| (value &&& 0x0F) = value ∧
      capital (hexDigit (value >>> 4)) = hexDigit (value >>> 4) ∧
      capital (hexDigit (value &&& 0x0F)) = hexDigit (value &&& 0x0F) := by
  have hall := forall_byte
    (p := fun value => decide (decodeNibble (hexDigit (value >>> 4)) = some (value >>> 4) ∧
      decodeNibble (hexDigit (value &&& 0x0F)) = some (value &&& 0x0F) ∧
      (value >>> 4) <<< 4 ||| (value &&& 0x0F) = value ∧
      capital (hexDigit (value >>> 4)) = hexDigit (value >>> 4) ∧
      capital (hexDigit (value &&& 0x0F)) = hexDigit (value &&& 0x0F))) (by decide +kernel) value
  exact of_decide_eq_true hall

theorem decodeNibble_capital (value : Byte) :
    decodeNibble (capital value) = decodeNibble value := by
  have hall := forall_byte (p := fun value => decide (decodeNibble (capital value)
    = decodeNibble value)) (by decide +kernel) value
  exact of_decide_eq_true hall

/-- A digit that reads is small or the one that is written. -/
theorem decodeNibble_some (value : Byte) : ∀ nibble, decodeNibble value = some nibble →
    nibble < 16 ∧ capital value = hexDigit nibble := by
  intro nibble hvalue
  have hthis := forall_byte (p := fun value => (decodeNibble value).all fun nibble =>
    decide (nibble < 16) && capital value == hexDigit nibble) (by decide +kernel) value
  rw [hvalue, Option.all_some, Bool.and_eq_true, decide_eq_true_eq, beq_iff_eq] at hthis
  exact hthis

theorem nibbles_of_pair (high low : Byte) (hhigh : high < 16) (hlow : low < 16) :
    (high <<< 4 ||| low) >>> 4 = high ∧ (high <<< 4 ||| low) &&& 0x0F = low := by
  have hall : ∀ a b : Fin 16, ((UInt8.ofNat a.val) <<< 4 ||| UInt8.ofNat b.val) >>> 4
        = UInt8.ofNat a.val ∧
      ((UInt8.ofNat a.val) <<< 4 ||| UInt8.ofNat b.val) &&& 0x0F = UInt8.ofNat b.val := by
    decide +kernel
  have hpair := hall ⟨high.toNat, UInt8.lt_iff_toNat_lt.mp hhigh⟩
    ⟨low.toNat, UInt8.lt_iff_toNat_lt.mp hlow⟩
  simpa using hpair

/-! ## Texts of digits -/

theorem length_toUpperHex (input : Bytes) : (toUpperHex input).length = input.length * 2 := by
  induction input with
  | nil => rfl
  | cons value input ih =>
      rw [toUpperHex, List.flatMap_cons, List.length_append]
      rw [toUpperHex] at ih
      rw [ih, List.length_cons, List.length_cons, List.length_cons, List.length_nil]
      omega

theorem toUpperHex_cons (value : Byte) (input : Bytes) :
    toUpperHex (value :: input)
      = hexDigit (value >>> 4) :: hexDigit (value &&& 0x0F) :: toUpperHex input := rfl

theorem decodePairs_toUpperHex (input : Bytes) : decodePairs (toUpperHex input) = some input := by
  induction input with
  | nil => rfl
  | cons value input ih =>
      obtain ⟨hhigh, hlow, hjoin, -, -⟩ := decodeNibble_hexDigit value
      rw [toUpperHex_cons, decodePairs, hhigh, hlow, ih]
      dsimp only
      rw [hjoin]
      rfl

theorem toUpperHex_inj {a b : Bytes} (h : toUpperHex a = toUpperHex b) : a = b := by
  have hread := decodePairs_toUpperHex a
  rw [h, decodePairs_toUpperHex] at hread
  exact (Option.some.inj hread).symm

/-- What reads as some bytes is their text, up to small digits. -/
theorem decodePairs_iff (size : Nat) : ∀ (input bytes : Bytes), input.length = size * 2 →
    (decodePairs input = some bytes ↔ input.map capital = toUpperHex bytes) := by
  induction size with
  | zero =>
      intro input bytes hlength
      have hnil : input = [] := List.eq_nil_of_length_eq_zero (by omega)
      subst hnil
      constructor
      · intro h
        cases h
        rfl
      · intro h
        cases bytes with
        | nil => rfl
        | cons value bytes => cases h
  | succ size ih =>
      intro input bytes hlength
      match input, hlength with
      | [], hlength | [_], hlength =>
          simp only [List.length_cons, List.length_nil] at hlength
          omega
      | high :: low :: rest, hlength =>
          have hrest : rest.length = size * 2 := by
            simp only [List.length_cons] at hlength
            omega
          constructor
          · intro h
            rw [decodePairs] at h
            cases hhigh : decodeNibble high with
            | none =>
                rw [hhigh] at h
                cases h
            | some a =>
                cases hlow : decodeNibble low with
                | none =>
                    rw [hhigh, hlow] at h
                    cases h
                | some b =>
                    rw [hhigh, hlow] at h
                    obtain ⟨tail, htail, rfl⟩ := Option.map_eq_some_iff.mp h
                    obtain ⟨hsmallA, hcapitalA⟩ := decodeNibble_some high a hhigh
                    obtain ⟨hsmallB, hcapitalB⟩ := decodeNibble_some low b hlow
                    obtain ⟨hsplitA, hsplitB⟩ := nibbles_of_pair a b hsmallA hsmallB
                    rw [toUpperHex_cons, hsplitA, hsplitB, List.map_cons, List.map_cons,
                      (ih rest tail hrest).mp htail, hcapitalA, hcapitalB]
          · intro h
            cases bytes with
            | nil => cases h
            | cons value bytes =>
                rw [toUpperHex_cons, List.map_cons, List.map_cons, List.cons.injEq,
                  List.cons.injEq] at h
                obtain ⟨hhigh, hlow, htail⟩ := h
                obtain ⟨hreadHigh, hreadLow, hjoin, -, -⟩ := decodeNibble_hexDigit value
                rw [← hhigh, decodeNibble_capital] at hreadHigh
                rw [← hlow, decodeNibble_capital] at hreadLow
                rw [decodePairs, hreadHigh, hreadLow, (ih rest bytes hrest).mpr htail]
                dsimp only
                rw [hjoin]
                rfl

theorem decodeHex_iff {input bytes : Bytes} {size : Nat} :
    decodeHex input size = some bytes ↔
      bytes.length = size ∧ input.map capital = toUpperHex bytes := by
  rw [decodeHex]
  by_cases hlength : input.length = size * 2
  · rw [if_neg (not_not.mpr hlength), decodePairs_iff size input bytes hlength]
    refine ⟨fun h => ⟨?_, h⟩, fun h => h.2⟩
    have hboth := congrArg List.length h
    rw [List.length_map, length_toUpperHex] at hboth
    omega
  · rw [if_pos hlength]
    refine ⟨fun h => (by cases h), fun h => ?_⟩
    have hboth := congrArg List.length h.2
    rw [List.length_map, length_toUpperHex, h.1] at hboth
    exact absurd hboth hlength

theorem map_capital_toUpperHex (input : Bytes) :
    (toUpperHex input).map capital = toUpperHex input := by
  induction input with
  | nil => rfl
  | cons value input ih =>
      obtain ⟨-, -, -, hhigh, hlow⟩ := decodeNibble_hexDigit value
      rw [toUpperHex_cons, List.map_cons, List.map_cons, hhigh, hlow, ih]

/-! ## Addresses -/

namespace Address

/-- `value_`. -/
def value (address : Address) : Bytes := text "BBC_" ++ toUpperHex address.hash.toList

/-- `Address::parse`. -/
def parse (encoded : Bytes) : Option Address :=
  if ¬ (text "BBC_").isPrefixOf encoded then none
  else
    match decodeHex (encoded.drop 4) 32 with
    | none => none
    | some bytes => if h : bytes.length = 32 then some ⟨⟨bytes, h⟩⟩ else none

/-- The texts that are read as an address: those whose digits, with capitals, are the ones
that are written. -/
theorem parse_iff {encoded : Bytes} {address : Address} :
    parse encoded = some address ↔
      ∃ digits, encoded = text "BBC_" ++ digits ∧
        digits.map capital = toUpperHex address.hash.toList := by
  rw [parse]
  by_cases hprefix : (text "BBC_").isPrefixOf encoded = true
  swap
  · rw [if_pos hprefix]
    refine ⟨fun h => (by cases h), ?_⟩
    rintro ⟨digits, rfl, -⟩
    exact absurd (List.isPrefixOf_iff_prefix.mpr (List.prefix_append _ _)) hprefix
  rw [if_neg (not_not.mpr hprefix)]
  obtain ⟨digits, rfl⟩ := List.isPrefixOf_iff_prefix.mp hprefix
  have hdrop : (text "BBC_" ++ digits).drop 4 = digits := rfl
  rw [hdrop]
  have hread : ∀ digits', text "BBC_" ++ digits = text "BBC_" ++ digits' → digits = digits' :=
    fun digits' heq => List.append_cancel_left heq
  constructor
  · intro h
    refine ⟨digits, rfl, ?_⟩
    cases hdecoded : decodeHex digits 32 with
    | none =>
        rw [hdecoded] at h
        cases h
    | some bytes =>
        rw [hdecoded] at h
        dsimp only at h
        obtain ⟨hlength, hdigits⟩ := decodeHex_iff.mp hdecoded
        rw [dif_pos hlength] at h
        cases h
        exact hdigits
  · rintro ⟨digits', heq, hdigits⟩
    have hsame := hread digits' heq
    subst hsame
    have hlength : address.hash.toList.length = 32 := address.hash.toList_length
    rw [decodeHex_iff.mpr ⟨hlength, hdigits⟩]
    dsimp only
    rw [dif_pos hlength]
    rfl

theorem parse_value (address : Address) : parse address.value = some address :=
  parse_iff.mpr ⟨_, rfl, map_capital_toUpperHex _⟩

end Address

end BBC
