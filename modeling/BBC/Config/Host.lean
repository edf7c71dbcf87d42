/-
# `BBC.Config.Host` — which host names a configuration may hold

`parse_endpoint` passes every configured host through `valid_host`: the listening address,
the peers and the RPC endpoint.  The function is two scanners, `valid_ipv4_literal` for a
value of digits and dots and a loop over labels for any other, each one pass with counters
that start again at a dot.

    digits and dots only     group "." group "." group "." group
    anything else            label ("." label)*

The grammar is stated on its own (`DecimalGroup`, `HostLabel`) and `valid_host` is shown to
accept exactly its sentences.  `part_value` is an `unsigned int`, which wraps at ten digits;
the length test of the group is what keeps a wrapped value from being read.
-/
import BBC.Lib.Fields
import BBC.Crypto.Basic
import Mathlib.Data.List.Induction
import Mathlib.Data.Nat.Digits.Defs

namespace BBC

namespace Host

open Fields

/-! ## The source -/

def dot : UInt8 := Char.toUInt8 '.'

def hyphen : UInt8 := Char.toUInt8 '-'

/-- `character >= '0' && character <= '9'`. -/
def digit (character : UInt8) : Bool :=
  Char.toUInt8 '0' ≤ character && character ≤ Char.toUInt8 '9'

/-- `ascii_alphanumeric`. -/
def asciiAlphanumeric (character : UInt8) : Bool :=
  (Char.toUInt8 'a' ≤ character && character ≤ Char.toUInt8 'z') ||
    (Char.toUInt8 'A' ≤ character && character ≤ Char.toUInt8 'Z') ||
    digit character

/-- The `for` of `valid_ipv4_literal` with its three variables, and the test after it. -/
def validIpv4From (partCount partLength : Nat) (partValue : UInt32) : Bytes → Bool
  | [] => partCount = 3 ∧ partLength > 0 ∧ partLength ≤ 3 ∧ partValue ≤ 255
  | character :: rest =>
      if character = dot then
        if partLength = 0 ∨ partLength > 3 ∨ partValue > 255 then false
        else validIpv4From (partCount + 1) 0 0 rest
      else if character < Char.toUInt8 '0' ∨ character > Char.toUInt8 '9' then false
      else
        validIpv4From partCount (partLength + 1)
          (partValue * 10 + (character - Char.toUInt8 '0').toUInt32) rest

/-- `valid_ipv4_literal`. -/
def validIpv4Literal (value : Bytes) : Bool := validIpv4From 0 0 0 value

/-- The `for` of `valid_host` with its two variables, and the test after it. -/
def validLabelsFrom (labelSize : Nat) (previousHyphen : Bool) : Bytes → Bool
  | [] => labelSize > 0 ∧ labelSize ≤ 63 ∧ previousHyphen = false
  | character :: rest =>
      if character = dot then
        if labelSize = 0 ∨ labelSize > 63 ∨ previousHyphen = true then false
        else validLabelsFrom 0 false rest
      else if asciiAlphanumeric character = false ∧ character ≠ hyphen then false
      else if labelSize = 0 ∧ character = hyphen then false
      else validLabelsFrom (labelSize + 1) (character == hyphen) rest

/-- `numeric_literal` of `valid_host`. -/
def numericLiteral (value : Bytes) : Bool :=
  value.all fun character => digit character || character == dot

/-- `valid_host`. -/
def validHost (value : Bytes) : Bool :=
  if value = [] ∨ value.length > 253 ∨ value.head?.any asciiAlphanumeric = false ∨
      value.getLast?.any asciiAlphanumeric = false then false
  else if numericLiteral value then validIpv4Literal value
  else validLabelsFrom 0 false value

/-! ## The grammar -/

/-- The number that a group of digits writes in decimal. -/
def decimal (group : Bytes) : Nat :=
  Nat.ofDigits 10 (group.reverse.map fun character => character.toNat - 48)

/-- One group of a dotted address. -/
structure DecimalGroup (group : Bytes) : Prop where
  length_pos : 1 ≤ group.length
  length_le : group.length ≤ 3
  digits : ∀ character ∈ group, digit character = true
  value_le : decimal group ≤ 255

/-- Four groups with dots between them. -/
def Ipv4Literal (value : Bytes) : Prop :=
  ∃ groups : List Bytes, value = List.intercalate [dot] groups ∧ groups.length = 4 ∧
    ∀ group ∈ groups, DecimalGroup group

/-- One label of a host name. -/
structure HostLabel (label : Bytes) : Prop where
  length_pos : 1 ≤ label.length
  length_le : label.length ≤ 63
  characters : ∀ character ∈ label, asciiAlphanumeric character = true ∨ character = hyphen
  head : label.head? ≠ some hyphen
  last : label.getLast? ≠ some hyphen

/-- Labels with dots between them. -/
def LabelSequence (value : Bytes) : Prop :=
  ∃ labels : List Bytes, value = List.intercalate [dot] labels ∧ labels ≠ [] ∧
    ∀ label ∈ labels, HostLabel label

/-! ## Characters -/

theorem digit_iff {character : UInt8} :
    digit character = true ↔ 48 ≤ character.toNat ∧ character.toNat ≤ 57 := by
  simp only [digit, Bool.and_eq_true, decide_eq_true_eq, UInt8.le_iff_toNat_le]
  exact Iff.rfl

theorem digit_ne_dot {character : UInt8} (h : digit character = true) : character ≠ dot := by
  rintro rfl
  cases h

theorem alphanumeric_ne_dot {character : UInt8} (h : asciiAlphanumeric character = true) :
    character ≠ dot := by
  rintro rfl
  cases h

theorem alphanumeric_of_digit {character : UInt8} (h : digit character = true) :
    asciiAlphanumeric character = true := by
  rw [asciiAlphanumeric, h, Bool.or_true]

/-- The range test of the source, with its `||`. -/
theorem not_digit_iff {character : UInt8} :
    (character < Char.toUInt8 '0' ∨ character > Char.toUInt8 '9') ↔ digit character = false := by
  rw [← Bool.not_eq_true, digit_iff, UInt8.lt_iff_toNat_lt, gt_iff_lt, UInt8.lt_iff_toNat_lt]
  show (character.toNat < 48 ∨ 57 < character.toNat) ↔ _
  omega

/-! ## The groups of an address -/

/-- The variables `part_length` and `part_value` within a group. -/
def groupReader : Automaton (Nat × UInt32) UInt8 where
  start := (0, 0)
  feed part character :=
    if digit character then
      some (part.1 + 1, part.2 * 10 + (character - Char.toUInt8 '0').toUInt32)
    else none
  good part := part.1 > 0 ∧ part.1 ≤ 3 ∧ part.2 ≤ 255

/-- The test that the source makes of a group at its end. -/
theorem groupReader_not_good {partLength : Nat} {partValue : UInt32} :
    groupReader.good (partLength, partValue) = false ↔
      partLength = 0 ∨ partLength > 3 ∨ partValue > 255 := by
  rw [groupReader, decide_eq_false_iff_not, not_and_or, not_and_or, Nat.not_lt, Nat.le_zero,
    Nat.not_le, UInt32.not_le]

/-- The loop is the pass of that automaton, with `part_count` for its separators. -/
theorem validIpv4From_iff (value : Bytes) :
    ∀ {partCount partLength : Nat} {partValue : UInt32},
      validIpv4From partCount partLength partValue value = true ↔
        scan groupReader dot partCount (partLength, partValue) value = some 3 := by
  induction value with
  | nil =>
      intro partCount partLength partValue
      rw [validIpv4From, scan, decide_eq_true_iff]
      by_cases hgood : groupReader.good (partLength, partValue) = true
      · rw [if_pos hgood, Option.some_inj]
        exact and_iff_left (of_decide_eq_true hgood)
      · rw [if_neg hgood]
        constructor
        · intro h
          exact absurd (decide_eq_true h.2) hgood
        · intro h
          cases h
  | cons character rest ih =>
      intro partCount partLength partValue
      rw [validIpv4From, scan]
      by_cases hdot : character = dot
      · rw [if_pos hdot, if_pos hdot]
        cases hgood : groupReader.good (partLength, partValue) with
        | false =>
            rw [if_pos (groupReader_not_good.mp hgood), if_neg Bool.false_ne_true]
            constructor
            · intro h
              cases h
            · intro h
              cases h
        | true =>
            rw [if_neg (mt groupReader_not_good.mpr (by rw [hgood]; exact Bool.noConfusion)),
              if_pos rfl]
            exact ih
      · rw [if_neg hdot, if_neg hdot]
        cases hdigit : digit character with
        | false =>
            rw [if_pos (not_digit_iff.mpr hdigit)]
            simp [groupReader, hdigit]
        | true =>
            rw [if_neg (mt not_digit_iff.mp (by rw [hdigit]; exact Bool.noConfusion))]
            simp only [groupReader, hdigit, if_true]
            exact ih

theorem decimal_concat (digits : Bytes) (character : UInt8) :
    decimal (digits ++ [character]) = decimal digits * 10 + (character.toNat - 48) := by
  rw [decimal, List.reverse_append, List.reverse_singleton, List.singleton_append, List.map_cons,
    Nat.ofDigits_cons, ← decimal]
  omega

/-- Few digits make a small number. -/
theorem decimal_lt {digits : Bytes} (h : ∀ character ∈ digits, digit character = true) :
    decimal digits < 10 ^ digits.length := by
  have hlt := Nat.ofDigits_lt_base_pow_length (b := 10)
    (l := digits.reverse.map fun character => character.toNat - 48) (by omega) ?_
  · rw [List.length_map, List.length_reverse] at hlt
    exact hlt
  · intro d hd
    obtain ⟨character, hmem, rfl⟩ := List.mem_map.mp hd
    have hdigit := digit_iff.mp (h character (List.mem_reverse.mp hmem))
    omega

/-- One step of the accumulation, in the 32 bits of an `unsigned int`. -/
theorem partValue_step {n : Nat} {character : UInt8} (h : digit character = true) :
    UInt32.ofNat n * 10 + (character - Char.toUInt8 '0').toUInt32
      = UInt32.ofNat (n * 10 + (character.toNat - 48)) := by
  have hdigit := digit_iff.mp h
  have hle : Char.toUInt8 '0' ≤ character := UInt8.le_iff_toNat_le.mpr hdigit.1
  have hsub : (character - Char.toUInt8 '0').toNat = character.toNat - 48 :=
    UInt8.toNat_sub_of_le _ _ hle
  apply UInt32.toNat_inj.mp
  rw [UInt32.toNat_add, UInt32.toNat_mul, UInt8.toNat_toUInt32, hsub, UInt32.toNat_ofNat',
    UInt32.toNat_ofNat']
  show (n % 2 ^ 32 * 10 % 2 ^ 32 + (character.toNat - 48)) % 2 ^ 32 = _
  omega

/-- Within a group the variables hold its length and its number, the latter modulo `2 ^ 32`. -/
theorem run_groupReader (digits : Bytes) :
    ∀ {part : Nat × UInt32}, digits.foldlM groupReader.feed groupReader.start = some part ↔
      (∀ character ∈ digits, digit character = true) ∧
        part = (digits.length, UInt32.ofNat (decimal digits)) := by
  induction digits using List.reverseRecOn with
  | nil =>
      intro part
      constructor
      · intro h
        cases h
        exact ⟨fun _ hmem => absurd hmem List.not_mem_nil, rfl⟩
      · rintro ⟨-, rfl⟩
        rfl
  | append_singleton digits character ih =>
      intro part
      rw [foldlM_concat]
      constructor
      · rintro ⟨before, hbefore, hfeed⟩
        obtain ⟨hdigits, rfl⟩ := ih.mp hbefore
        cases hdigit : digit character with
        | false => simp [groupReader, hdigit] at hfeed
        | true =>
            simp only [groupReader, hdigit, if_true, Option.some_inj] at hfeed
            refine ⟨?_, ?_⟩
            · intro d hd
              rcases List.mem_append.mp hd with hd | hd
              · exact hdigits d hd
              · rw [List.mem_singleton.mp hd]
                exact hdigit
            · rw [← hfeed, partValue_step hdigit, decimal_concat, List.length_append]
              rfl
      · rintro ⟨hdigits, rfl⟩
        have hdigit := hdigits character
          (List.mem_append_right _ (List.mem_singleton_self character))
        refine ⟨_, ih.mpr ⟨fun d hd => hdigits d (List.mem_append_left _ hd), rfl⟩, ?_⟩
        simp only [groupReader, hdigit, if_true, Option.some_inj]
        rw [partValue_step hdigit, decimal_concat, List.length_append]
        rfl

/-- A group passes exactly when it is one of the grammar.  Of at most three digits nothing
has wrapped. -/
theorem accepts_groupReader (digits : Bytes) :
    groupReader.Accepts groupReader.start digits ↔ DecimalGroup digits := by
  have hexact : (∀ character ∈ digits, digit character = true) → digits.length ≤ 3 →
      (UInt32.ofNat (decimal digits)).toNat = decimal digits := by
    intro hdigits hle
    have hlt := decimal_lt hdigits
    have hpow : 10 ^ digits.length ≤ 10 ^ 3 := Nat.pow_le_pow_right (by omega) hle
    rw [UInt32.toNat_ofNat', Nat.mod_eq_of_lt]
    omega
  constructor
  · rintro ⟨part, hrun, hgood⟩
    obtain ⟨hdigits, rfl⟩ := (run_groupReader digits).mp hrun
    have htest : digits.length > 0 ∧ digits.length ≤ 3 ∧ UInt32.ofNat (decimal digits) ≤ 255 :=
      of_decide_eq_true hgood
    have hvalue := UInt32.le_iff_toNat_le.mp htest.2.2
    rw [hexact hdigits htest.2.1] at hvalue
    exact ⟨htest.1, htest.2.1, hdigits, hvalue⟩
  · intro h
    refine ⟨_, (run_groupReader digits).mpr ⟨h.digits, rfl⟩, decide_eq_true ?_⟩
    refine ⟨h.length_pos, h.length_le, UInt32.le_iff_toNat_le.mpr ?_⟩
    rw [hexact h.digits h.length_le]
    exact h.value_le

theorem DecimalGroup.dot_not_mem {digits : Bytes} (h : DecimalGroup digits) : dot ∉ digits :=
  fun hmem => digit_ne_dot (h.digits dot hmem) rfl

/-- `valid_ipv4_literal` accepts the four groups of the grammar, whatever the string. -/
theorem validIpv4Literal_iff {value : Bytes} :
    validIpv4Literal value = true ↔ Ipv4Literal value := by
  rw [validIpv4Literal, validIpv4From_iff]
  show scan groupReader dot 0 groupReader.start value = some 3 ↔ _
  rw [scan_eq_some_iff]
  constructor
  · rintro ⟨groups, hvalue, hlength, hgroups⟩
    exact ⟨groups, hvalue, hlength, fun g hg => (accepts_groupReader g).mp (hgroups g hg).1⟩
  · rintro ⟨groups, hvalue, hlength, hgroups⟩
    refine ⟨groups, hvalue, hlength, fun g hg => ⟨?_, (hgroups g hg).dot_not_mem⟩⟩
    exact (accepts_groupReader g).mpr (hgroups g hg)

/-! ## The labels of a name -/

/-- The variables `label_size` and `previous_hyphen` within a label. -/
def labelReader : Automaton (Nat × Bool) UInt8 where
  start := (0, false)
  feed label character :=
    if asciiAlphanumeric character = false ∧ character ≠ hyphen then none
    else if label.1 = 0 ∧ character = hyphen then none
    else some (label.1 + 1, character == hyphen)
  good label := label.1 > 0 ∧ label.1 ≤ 63 ∧ label.2 = false

/-- The test that the source makes of a label at its end. -/
theorem labelReader_not_good {labelSize : Nat} {previousHyphen : Bool} :
    labelReader.good (labelSize, previousHyphen) = false ↔
      labelSize = 0 ∨ labelSize > 63 ∨ previousHyphen = true := by
  rw [labelReader, decide_eq_false_iff_not, not_and_or, not_and_or, Nat.not_lt, Nat.le_zero,
    Nat.not_le, Bool.not_eq_false]

/-- The loop is the pass of that automaton. -/
theorem validLabelsFrom_iff (value : Bytes) :
    ∀ {labelSize : Nat} {previousHyphen : Bool} (dots : Nat),
      validLabelsFrom labelSize previousHyphen value = true ↔
        ∃ m, scan labelReader dot dots (labelSize, previousHyphen) value = some m := by
  induction value with
  | nil =>
      intro labelSize previousHyphen dots
      rw [validLabelsFrom, scan]
      constructor
      · intro h
        exact ⟨dots, if_pos h⟩
      · rintro ⟨m, hm⟩
        split at hm
        · rename_i hgood
          exact hgood
        · cases hm
  | cons character rest ih =>
      intro labelSize previousHyphen dots
      rw [validLabelsFrom, scan]
      by_cases hdot : character = dot
      · rw [if_pos hdot, if_pos hdot]
        cases hgood : labelReader.good (labelSize, previousHyphen) with
        | false =>
            rw [if_pos (labelReader_not_good.mp hgood), if_neg Bool.false_ne_true]
            constructor
            · intro h
              cases h
            · rintro ⟨m, hm⟩
              cases hm
        | true =>
            rw [if_neg (mt labelReader_not_good.mpr (by rw [hgood]; exact Bool.noConfusion)),
              if_pos rfl]
            exact ih (dots + 1)
      · rw [if_neg hdot, if_neg hdot]
        by_cases hforeign : asciiAlphanumeric character = false ∧ character ≠ hyphen
        · simp [labelReader, hforeign]
        by_cases hleading : labelSize = 0 ∧ character = hyphen
        · simp [labelReader, hleading]
        · rw [if_neg hforeign, if_neg hleading]
          have hfeed : labelReader.feed (labelSize, previousHyphen) character
              = some (labelSize + 1, character == hyphen) := by
            show (if _ then _ else if _ then _ else _) = _
            rw [if_neg hforeign, if_neg hleading]
          rw [hfeed]
          exact ih dots

/-- Within a label the variables hold its size and whether it ends in a hyphen. -/
theorem run_labelReader (characters : Bytes) :
    ∀ {label : Nat × Bool}, characters.foldlM labelReader.feed labelReader.start = some label ↔
      (∀ character ∈ characters, asciiAlphanumeric character = true ∨ character = hyphen) ∧
        characters.head? ≠ some hyphen ∧
        label = (characters.length, characters.getLast? == some hyphen) := by
  induction characters using List.reverseRecOn with
  | nil =>
      intro label
      constructor
      · intro h
        cases h
        exact ⟨fun _ hmem => absurd hmem List.not_mem_nil, fun h => (by cases h), rfl⟩
      · rintro ⟨-, -, rfl⟩
        rfl
  | append_singleton characters character ih =>
      intro label
      -- the character leads exactly when nothing has been read before it
      have hhead : (characters ++ [character]).head? ≠ some hyphen ↔
          characters.head? ≠ some hyphen ∧ ¬(characters.length = 0 ∧ character = hyphen) := by
        cases characters with
        | nil => simp
        | cons a characters => simp
      rw [foldlM_concat, hhead]
      constructor
      · rintro ⟨before, hbefore, hfeed⟩
        obtain ⟨hall, hfirst, rfl⟩ := ih.mp hbefore
        simp only [labelReader] at hfeed
        split at hfeed
        · cases hfeed
        rename_i hforeign
        split at hfeed
        · cases hfeed
        rename_i hleading
        cases hfeed
        refine ⟨?_, ⟨hfirst, hleading⟩, ?_⟩
        · intro d hd
          rcases List.mem_append.mp hd with hd | hd
          · exact hall d hd
          · rw [List.mem_singleton.mp hd]
            by_contra hnot
            rw [not_or, Bool.not_eq_true] at hnot
            exact hforeign hnot
        · rw [List.length_append, List.getLast?_concat]
          rfl
      · rintro ⟨hall, ⟨hfirst, hleading⟩, rfl⟩
        refine ⟨_, ih.mpr ⟨fun d hd => hall d (List.mem_append_left _ hd), hfirst, rfl⟩, ?_⟩
        have hforeign : ¬(asciiAlphanumeric character = false ∧ character ≠ hyphen) := by
          rintro ⟨halnum, hne⟩
          rcases hall character (List.mem_append_right _ (List.mem_singleton_self _)) with h | h
          · rw [halnum] at h
            cases h
          · exact hne h
        simp only [labelReader]
        rw [if_neg hforeign, if_neg hleading, List.length_append, List.getLast?_concat]
        rfl

/-- A label passes exactly when it is one of the grammar. -/
theorem accepts_labelReader (characters : Bytes) :
    labelReader.Accepts labelReader.start characters ↔ HostLabel characters := by
  constructor
  · rintro ⟨label, hrun, hgood⟩
    obtain ⟨hall, hfirst, rfl⟩ := (run_labelReader characters).mp hrun
    have htest : characters.length > 0 ∧ characters.length ≤ 63 ∧
        (characters.getLast? == some hyphen) = false := of_decide_eq_true hgood
    exact ⟨htest.1, htest.2.1, hall, hfirst, fun hlast => (beq_eq_false_iff_ne.mp htest.2.2) hlast⟩
  · intro h
    refine ⟨_, (run_labelReader characters).mpr ⟨h.characters, h.head, rfl⟩, decide_eq_true ?_⟩
    exact ⟨h.length_pos, h.length_le, beq_eq_false_iff_ne.mpr h.last⟩

theorem HostLabel.dot_not_mem {label : Bytes} (h : HostLabel label) : dot ∉ label := by
  intro hmem
  rcases h.characters dot hmem with hdot | hdot
  · exact alphanumeric_ne_dot hdot rfl
  · cases hdot

theorem validLabels_iff {value : Bytes} :
    validLabelsFrom 0 false value = true ↔ LabelSequence value := by
  rw [validLabelsFrom_iff value 0]
  show (∃ m, scan labelReader dot 0 labelReader.start value = some m) ↔ _
  constructor
  · rintro ⟨m, hm⟩
    obtain ⟨labels, hvalue, hlength, hlabels⟩ := scan_eq_some_iff.mp hm
    have hne : labels ≠ [] := by
      rintro rfl
      cases hlength
    exact ⟨labels, hvalue, hne, fun l hl => (accepts_labelReader l).mp (hlabels l hl).1⟩
  · rintro ⟨labels, hvalue, hne, hlabels⟩
    refine ⟨labels.length - 1, scan_eq_some_iff.mpr ⟨labels, hvalue, ?_, ?_⟩⟩
    · have := List.length_pos_of_ne_nil hne
      omega
    · intro l hl
      exact ⟨(accepts_labelReader l).mpr (hlabels l hl), (hlabels l hl).dot_not_mem⟩

/-! ## The ends of a value -/

/-- Both kinds of field begin and end with a letter or a digit. -/
structure WellEnded (field : Bytes) : Prop where
  head : field.head?.any asciiAlphanumeric = true
  last : field.getLast?.any asciiAlphanumeric = true

theorem WellEnded.ne_nil {field : Bytes} (h : WellEnded field) : field ≠ [] := by
  rintro rfl
  cases h.head

theorem DecimalGroup.wellEnded {digits : Bytes} (h : DecimalGroup digits) : WellEnded digits where
  head := by
    cases digits with
    | nil => cases h.length_pos
    | cons a digits =>
        exact alphanumeric_of_digit (h.digits a List.mem_cons_self)
  last := by
    obtain ⟨a, ha⟩ := Option.isSome_iff_exists.mp
      (List.getLast?_isSome.mpr (List.length_pos_iff.mp h.length_pos))
    rw [ha]
    exact alphanumeric_of_digit (h.digits a (List.mem_of_getLast? ha))

theorem HostLabel.wellEnded {label : Bytes} (h : HostLabel label) : WellEnded label where
  head := by
    cases label with
    | nil => cases h.length_pos
    | cons a label =>
        rcases h.characters a List.mem_cons_self with ha | ha
        · exact ha
        · exact absurd (congrArg some ha) h.head
  last := by
    obtain ⟨a, ha⟩ := Option.isSome_iff_exists.mp
      (List.getLast?_isSome.mpr (List.length_pos_iff.mp h.length_pos))
    rw [ha]
    rcases h.characters a (List.mem_of_getLast? ha) with hchar | hchar
    · exact hchar
    · exact absurd (ha.trans (congrArg some hchar)) h.last

/-- So does any sequence of them: the test of the first and the last character in
`valid_host` rejects nothing that a scanner would accept. -/
theorem WellEnded.intercalate {fields : List Bytes} (hne : fields ≠ [])
    (h : ∀ field ∈ fields, WellEnded field) : WellEnded (List.intercalate [dot] fields) where
  head := by
    obtain ⟨first, rest, rfl⟩ := List.exists_cons_of_ne_nil hne
    have hfirst := h first List.mem_cons_self
    rw [head?_intercalate hfirst.ne_nil]
    exact hfirst.head
  last := by
    have hlast := h (fields.getLast hne) (List.getLast_mem hne)
    rw [← List.dropLast_concat_getLast hne, getLast?_intercalate hlast.ne_nil]
    exact hlast.last

theorem Ipv4Literal.wellEnded {value : Bytes} (h : Ipv4Literal value) : WellEnded value := by
  obtain ⟨groups, rfl, hlength, hgroups⟩ := h
  have hne : groups ≠ [] := by
    rintro rfl
    cases hlength
  exact WellEnded.intercalate hne fun g hg => (hgroups g hg).wellEnded

theorem LabelSequence.wellEnded {value : Bytes} (h : LabelSequence value) : WellEnded value := by
  obtain ⟨labels, rfl, hne, hlabels⟩ := h
  exact WellEnded.intercalate hne fun l hl => (hlabels l hl).wellEnded

/-! ## `valid_host` -/

/-- The value consists of digits and dots. -/
def Numeric (value : Bytes) : Prop :=
  ∀ character ∈ value, digit character = true ∨ character = dot

theorem numericLiteral_iff {value : Bytes} : numericLiteral value = true ↔ Numeric value := by
  rw [numericLiteral, List.all_eq_true]
  simp only [Bool.or_eq_true, beq_iff_eq]
  exact Iff.rfl

/-- The tests before the scanners add only the bound on the length. -/
theorem validHost_iff_scanners {value : Bytes} :
    validHost value = true ↔ 1 ≤ value.length ∧ value.length ≤ 253 ∧
      ((Numeric value ∧ Ipv4Literal value) ∨ (¬Numeric value ∧ LabelSequence value)) := by
  have hscan : (if numericLiteral value then validIpv4Literal value
        else validLabelsFrom 0 false value) = true ↔
      (Numeric value ∧ Ipv4Literal value) ∨ (¬Numeric value ∧ LabelSequence value) := by
    rw [← validIpv4Literal_iff, ← validLabels_iff, ← numericLiteral_iff]
    split
    · rename_i hnumeric
      simp [hnumeric]
    · rename_i hother
      simp [hother]
  rw [validHost]
  split
  · rename_i hreject
    refine ⟨fun h => (by cases h), ?_⟩
    rintro ⟨hpos, hle, hgrammar⟩
    have hends : WellEnded value := by
      rcases hgrammar with ⟨-, h⟩ | ⟨-, h⟩
      · exact h.wellEnded
      · exact h.wellEnded
    rcases hreject with hempty | hlong | hhead | hlast
    · exact absurd hempty hends.ne_nil
    · omega
    · rw [hends.head] at hhead
      cases hhead
    · rw [hends.last] at hlast
      cases hlast
  · rename_i hpass
    rw [not_or, not_or] at hpass
    rw [hscan]
    constructor
    · intro h
      exact ⟨List.length_pos_iff.mpr hpass.1, Nat.not_lt.mp hpass.2.1, h⟩
    · intro h
      exact h.2.2

/-- `valid_host` accepts exactly the hosts of the grammar, and a group of more than three
digits is never part of an accepted address, wherever its wrapped value may lie. -/
theorem validHost_iff_grammar (value : Bytes) :
    (validHost value = true ↔
      1 ≤ value.length ∧ value.length ≤ 253 ∧
        (((∀ character ∈ value, digit character = true ∨ character = dot) ∧
            ∃ groups : List Bytes, value = List.intercalate [dot] groups ∧ groups.length = 4 ∧
              ∀ group ∈ groups, DecimalGroup group) ∨
          ((∃ character ∈ value, digit character = false ∧ character ≠ dot) ∧
            ∃ labels : List Bytes, value = List.intercalate [dot] labels ∧ labels ≠ [] ∧
              ∀ label ∈ labels, HostLabel label))) ∧
      (validIpv4Literal value = true ↔ Ipv4Literal value) ∧
      ((∃ group ∈ value.splitOn dot, 3 < group.length) → validIpv4Literal value = false) := by
  have hnot : (∃ character ∈ value, digit character = false ∧ character ≠ dot) ↔
      ¬Numeric value := by
    simp [Numeric]
  refine ⟨?_, validIpv4Literal_iff, ?_⟩
  · rw [hnot]
    exact validHost_iff_scanners
  · rintro ⟨long, hmem, hlong⟩
    rw [← Bool.not_eq_true, validIpv4Literal_iff]
    rintro ⟨groups, rfl, hlength, hgroups⟩
    have hne : groups ≠ [] := by
      rintro rfl
      cases hlength
    rw [List.splitOn_intercalate dot (fun g hg => (hgroups g hg).dot_not_mem) hne] at hmem
    have hle := (hgroups long hmem).length_le
    omega

/-- Ten digits of value `2 ^ 32`: the accumulated value is zero, the length rejects it. -/
example : validHost ([ '4', '2', '9', '4', '9', '6', '7', '2', '9', '6', '.', '0', '.', '0',
    '.', '1'].map Char.toUInt8) = false := by decide

end Host

end BBC
