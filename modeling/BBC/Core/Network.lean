/-
# `BBC.Core.Network` — the two network profiles

`src/core/network.cpp`: a chain id selects one of two parameter sets, and any
other id is unsupported.  The profile fixes the proof-of-work target and the
frame magic.
-/
import BBC.Crypto.Basic

namespace BBC

/-- `core::NetworkProfile`. -/
inductive NetworkProfile where
  | development
  | regtest
  deriving DecidableEq, Repr

/-- `core::NetworkParameters`, without the display name. -/
structure NetworkParameters where
  profile : NetworkProfile
  chainId : UInt32
  p2pMagic : FixedBytes 4
  difficultyTarget : Hash256

/-- `target_with_zero_prefix`: all ones after `zeroBytes` zero bytes. -/
def targetWithZeroPrefix (zeroBytes : Nat) : Hash256 :=
  List.Vector.ofFn fun i => if i.val < zeroBytes then 0 else 0xFF

/-- `regtest_target`: `00 0F FF … FF`. -/
def regtestTarget : Hash256 :=
  List.Vector.ofFn fun i => if i.val = 0 then 0 else if i.val = 1 then 0x0F else 0xFF

def development : NetworkParameters where
  profile := .development
  chainId := 1
  p2pMagic := ⟨[0x42, 0x42, 0x43, 1], rfl⟩
  difficultyTarget := targetWithZeroPrefix 3

def regtest : NetworkParameters where
  profile := .regtest
  chainId := 2
  p2pMagic := ⟨[0x42, 0x42, 0x43, 2], rfl⟩
  difficultyTarget := regtestTarget

/-- `network_parameters`. -/
def networkParameters (profile : NetworkProfile) : NetworkParameters :=
  if profile = .regtest then regtest else development

/-- `network_parameters_for_chain`: the null pointer is `none`. -/
def networkParametersForChain (chainId : UInt32) : Option NetworkParameters :=
  if chainId = development.chainId then some development
  else if chainId = regtest.chainId then some regtest
  else none

/-- The chain ids for which `network_parameters_for_chain` is not null. -/
def SupportedChain (chainId : UInt32) : Prop := networkParametersForChain chainId ≠ none

/-- The table, read backwards. -/
theorem networkParametersForChain_eq_some {chainId : UInt32} {network : NetworkParameters}
    (h : networkParametersForChain chainId = some network) :
    (chainId = 1 ∧ network = development) ∨ (chainId = 2 ∧ network = regtest) := by
  unfold networkParametersForChain at h
  by_cases h1 : chainId = development.chainId
  · rw [if_pos h1] at h
    cases h
    exact Or.inl ⟨h1, rfl⟩
  rw [if_neg h1] at h
  by_cases h2 : chainId = regtest.chainId
  · rw [if_pos h2] at h
    cases h
    exact Or.inr ⟨h2, rfl⟩
  rw [if_neg h2] at h
  cases h

theorem SupportedChain.parameters {chainId : UInt32} (h : SupportedChain chainId) :
    ∃ network, networkParametersForChain chainId = some network :=
  Option.ne_none_iff_exists'.mp h

instance (chainId : UInt32) : Decidable (SupportedChain chainId) :=
  match h : networkParametersForChain chainId with
  | none => isFalse (fun hs => hs h)
  | some _ => isTrue (by rw [SupportedChain, h]; exact Option.some_ne_none _)

end BBC
