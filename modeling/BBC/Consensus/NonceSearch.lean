/-
# `BBC.Consensus.NonceSearch` — what `mine_block` finds

`mine_block` is a scan of the nonces from the candidate's own: the loop and the scan end
in the same way, with the attempts counted (`mineLoop_eq`).  The bytes that are hashed are
the header of the candidate with that nonce, so a hit is a nonce under which the candidate
meets the target.

The loop of `launch_mining` calls `mine_block` with a limit, and goes on with the nonce
that it returns.  A scan in pieces is one scan, so the batches find what a single run
without a limit would.
-/
import BBC.Chain.ArrivalOrder
import BBC.Consensus.Mining
import BBC.Lib.Scan
import Mathlib.Algebra.BigOperators.Group.List.Basic

namespace BBC

open Scan (scan Misses Ended)

variable {κ : Crypto} {candidate : Block}

/-- The candidate with this nonce meets the target of its network. -/
def meetsAt (κ : Crypto) (candidate : Block) (nonce : Nat) : Bool :=
  hashMeetsTarget ((candidate.withMiningNonce (UInt64.ofNat nonce)).id κ)
    (fixedDifficultyTarget candidate.chainId)

/-- The number of nonces. -/
def nonceCount : Nat := 2 ^ 64

/-- The result of a scan that began at `s` after `attempts` trials. -/
def resultOf (candidate : Block) (s attempts : Nat) : Scan → MiningResult
  | .found m =>
      ⟨.ok (candidate.withMiningNonce (UInt64.ofNat m)),
        UInt64.ofNat (attempts + (m - s) + 1), none⟩
  | .exhausted => ⟨.error .nonceExhausted, UInt64.ofNat (attempts + (nonceCount - s)), none⟩
  | .stopped next =>
      ⟨.error .attemptLimitReached, UInt64.ofNat (attempts + (next - s)), some (UInt64.ofNat next)⟩

theorem meets_writeMiningNonce (hmineable : candidate.isGenesis = false) (nonce : UInt64) :
    hashMeetsTarget (κ.sha256 (writeMiningNonce candidate.serializeHeader nonce))
        (fixedDifficultyTarget candidate.chainId)
      = meetsAt κ candidate nonce.toNat := by
  rw [writeMiningNonce_serializeHeader hmineable, meetsAt, UInt64.ofNat_toNat]
  rfl

/-- The result does not depend on where the counting of a scan begins. -/
theorem resultOf_succ (candidate : Block) {n s : Nat} (hs : s + 1 < nonceCount) (attempts : Nat) :
    ∀ {r : Scan}, Ended (meetsAt κ candidate) nonceCount n (s + 1) r →
      resultOf candidate (s + 1) (attempts + 1) r = resultOf candidate s attempts r := by
  intro r h
  cases h with
  | found le lt inside meets before =>
      rename_i m
      have hcount : attempts + 1 + (m - (s + 1)) + 1 = attempts + (m - s) + 1 := by omega
      rw [resultOf, resultOf, hcount]
  | exhausted =>
      have hcount : attempts + 1 + (nonceCount - (s + 1)) = attempts + (nonceCount - s) := by omega
      rw [resultOf, resultOf, hcount]
  | stopped =>
      have hcount : attempts + 1 + (s + 1 + n - (s + 1)) = attempts + (s + 1 + n - s) := by omega
      rw [resultOf, resultOf, hcount]

/-- The `while` of `mine_block` is a scan. -/
theorem mineLoop_eq (hmineable : candidate.isGenesis = false) (remaining : Nat) :
    ∀ (nonce : UInt64) (attempts : Nat),
      mineLoop κ candidate (fixedDifficultyTarget candidate.chainId) remaining nonce
          (UInt64.ofNat attempts)
        = resultOf candidate nonce.toNat attempts
            (scan (meetsAt κ candidate) nonceCount remaining nonce.toNat) := by
  induction remaining with
  | zero =>
      intro nonce attempts
      rw [mineLoop, scan, resultOf, Nat.sub_self, Nat.add_zero, UInt64.ofNat_toNat]
  | succ remaining ih =>
      intro nonce attempts
      have hnext : UInt64.ofNat attempts + 1 = UInt64.ofNat (attempts + 1) :=
        (UInt64.ofNat_add attempts 1).symm
      rw [mineLoop, scan, meets_writeMiningNonce hmineable]
      split
      · rw [resultOf, Nat.sub_self, Nat.add_zero, UInt64.ofNat_toNat, hnext]
      by_cases hmax : nonce = maxU64
      · have hlast : nonce.toNat + 1 = nonceCount := by
          rw [hmax, maxU64_toNat]
          rfl
        have hrest : nonceCount - nonce.toNat = 1 := by omega
        rw [if_pos hmax, if_pos hlast, resultOf, hrest, hnext]
      · have hlt := toNat_lt_of_ne_max hmax
        have hinside : nonce.toNat + 1 < nonceCount := hlt
        have hsucc : (nonce + 1).toNat = nonce.toNat + 1 := toNat_add_of_lt (b := 1) hlt
        rw [if_neg hmax, if_neg (Nat.ne_of_lt hinside), hnext, ih, hsucc]
        exact resultOf_succ candidate hinside attempts (Scan.ended_scan _ remaining hinside)

theorem mineBlock_eq (hmineable : candidate.isGenesis = false)
    (htarget : candidate.difficultyTarget = fixedDifficultyTarget candidate.chainId)
    (maximumAttempts : UInt64) :
    mineBlock κ candidate maximumAttempts
      = resultOf candidate candidate.miningNonce.toNat 0
          (scan (meetsAt κ candidate) nonceCount maximumAttempts.toNat
            candidate.miningNonce.toNat) := by
  rw [mineBlock, hmineable, if_neg Bool.false_ne_true, if_neg (not_not.mpr htarget)]
  exact mineLoop_eq hmineable _ candidate.miningNonce 0

/-! ## The batches -/

/-- The calls that the loop of `launch_mining` makes, with what they return: at most
`calls` of them, and no cancellation. -/
def mineBatches (κ : Crypto) (batch : UInt64) : Nat → Block → List (Block × MiningResult)
  | 0, _ => []
  | calls + 1, candidate =>
      let result := mineBlock κ candidate batch
      (candidate, result) :: match result.value, result.nextNonce with
        | .ok _, _ => []
        | .error _, none => []
        | .error _, some nonce => mineBatches κ batch calls (candidate.withMiningNonce nonce)

/-- The attempts of all the calls. -/
def attemptsOf (calls : List (Block × MiningResult)) : Nat :=
  (calls.map fun call => call.2.attempts.toNat).sum

/-- The nonces of all the calls, in order: a call tries as many as it has attempts, from
its candidate's on. -/
def noncesOfCalls (calls : List (Block × MiningResult)) : List Nat :=
  calls.flatMap fun call => List.range' call.1.miningNonce.toNat call.2.attempts.toNat

/-- The number of trials of a scan from `s`. -/
def trials (s : Nat) : Scan → Nat
  | .found m => m - s + 1
  | .exhausted => nonceCount - s
  | .stopped next => next - s

theorem withMiningNonce_withMiningNonce (b : Block) (first second : UInt64) :
    (b.withMiningNonce first).withMiningNonce second = b.withMiningNonce second := by
  cases hgenesis : b.isGenesis with
  | true =>
      have hsame : ∀ nonce, b.withMiningNonce nonce = b := fun nonce => if_pos hgenesis
      rw [hsame, hsame]
  | false =>
      have hset : ∀ nonce, b.withMiningNonce nonce = { b with miningNonce := nonce } :=
        fun nonce => if_neg (by rw [hgenesis]; exact Bool.false_ne_true)
      rw [hset, hset, Block.withMiningNonce]
      exact if_neg (by rw [Block.isGenesis] at hgenesis ⊢; rw [hgenesis]; exact Bool.false_ne_true)

theorem resultOf_withMiningNonce (candidate : Block) (nonce : UInt64) (s t : Nat) (r : Scan) :
    (resultOf (candidate.withMiningNonce nonce) s 0 r).value = (resultOf candidate t 0 r).value ∧
      (resultOf (candidate.withMiningNonce nonce) s 0 r).nextNonce
        = (resultOf candidate t 0 r).nextNonce := by
  cases r with
  | found m =>
      refine ⟨?_, rfl⟩
      rw [resultOf, resultOf, withMiningNonce_withMiningNonce]
  | exhausted => exact ⟨rfl, rfl⟩
  | stopped next => exact ⟨rfl, rfl⟩

theorem attempts_resultOf {n s : Nat} (hn : n < 2 ^ 64) {r : Scan}
    (h : Ended (meetsAt κ candidate) nonceCount n s r) :
    (resultOf candidate s 0 r).attempts.toNat = trials s r := by
  have htoNat : ∀ count : Nat, count ≤ n → (UInt64.ofNat (0 + count)).toNat = count := by
    intro count hle
    rw [Nat.zero_add]
    exact UInt64.toNat_ofNat_of_lt' (Nat.lt_of_le_of_lt hle hn)
  cases h with
  | found le lt inside meets before =>
      rename_i m
      exact htoNat (m - s + 1) (by omega)
  | exhausted some reaches none =>
      exact htoNat (nonceCount - s) (by omega)
  | stopped short none =>
      exact htoNat (s + n - s) (by omega)

/-- The batches make one scan. -/
theorem mineBatches_spec {batch : UInt64} (hbatch : 0 < batch.toNat) (calls : Nat) :
    ∀ {candidate : Block}, candidate.isGenesis = false →
      candidate.difficultyTarget = fixedDifficultyTarget candidate.chainId →
      let rs := mineBatches κ batch calls candidate
      let s := candidate.miningNonce.toNat
      let whole := scan (meetsAt κ candidate) nonceCount (calls * batch.toNat) s
      attemptsOf rs = trials s whole ∧ noncesOfCalls rs = List.range' s (trials s whole) ∧
        (0 < calls → ∃ last, rs.getLast? = some last ∧
          last.2.value = (resultOf candidate s 0 whole).value ∧
          last.2.nextNonce = (resultOf candidate s 0 whole).nextNonce) := by
  induction calls with
  | zero =>
      intro candidate _ _ rs s whole
      have hwhole : whole = .stopped s := by
        show scan (meetsAt κ candidate) nonceCount (0 * batch.toNat) s = _
        rw [Nat.zero_mul]
        rfl
      rw [hwhole, trials, Nat.sub_self]
      exact ⟨rfl, rfl, fun hpos => absurd hpos (Nat.lt_irrefl 0)⟩
  | succ calls ih =>
      intro candidate hmineable htarget rs s whole
      have hs : s < nonceCount := candidate.miningNonce.toNat_lt
      have hended := Scan.ended_scan (meetsAt κ candidate) batch.toNat hs
      have hcall := mineBlock_eq (κ := κ) hmineable htarget batch
      have hattempts := attempts_resultOf batch.toNat_lt hended
      have hwhole : whole = (scan (meetsAt κ candidate) nonceCount batch.toNat s).andThen
          (scan (meetsAt κ candidate) nonceCount (calls * batch.toNat)) := by
        show scan _ _ ((calls + 1) * batch.toNat) s = _
        rw [Nat.succ_mul, Nat.add_comm, Scan.scan_add]
      clear_value whole
      -- one call, and the calls after it when it has stopped
      have hrs : rs = (candidate, mineBlock κ candidate batch) ::
          match (mineBlock κ candidate batch).value, (mineBlock κ candidate batch).nextNonce with
          | .ok _, _ => []
          | .error _, none => []
          | .error _, some nonce => mineBatches κ batch calls (candidate.withMiningNonce nonce) :=
        rfl
      rw [hcall] at hrs
      change (resultOf candidate s 0 _).attempts.toNat = _ at hattempts
      change rs = (candidate, resultOf candidate s 0 _) :: _ at hrs
      generalize scan (meetsAt κ candidate) nonceCount batch.toNat s = r at *
      cases hended with
      | found le lt inside meets before =>
          have hrs : rs = [(candidate, resultOf candidate s 0 (.found _))] := hrs
          rw [hwhole, hrs]
          refine ⟨?_, ?_, fun _ => ⟨_, rfl, rfl, rfl⟩⟩
          · rw [attemptsOf, List.map_singleton, List.sum_singleton]
            exact hattempts
          · rw [noncesOfCalls, List.flatMap_singleton]
            exact congrArg (List.range' s) hattempts
      | exhausted some reaches none =>
          have hrs : rs = [(candidate, resultOf candidate s 0 .exhausted)] := hrs
          rw [hwhole, hrs]
          refine ⟨?_, ?_, fun _ => ⟨_, rfl, rfl, rfl⟩⟩
          · rw [attemptsOf, List.map_singleton, List.sum_singleton]
            exact hattempts
          · rw [noncesOfCalls, List.flatMap_singleton]
            exact congrArg (List.range' s) hattempts
      | stopped short none =>
          have hrs : rs = (candidate, resultOf candidate s 0 (.stopped (s + batch.toNat))) ::
              mineBatches κ batch calls
                (candidate.withMiningNonce (UInt64.ofNat (s + batch.toNat))) := hrs
          have hinside : s + batch.toNat < nonceCount := short.resolve_left (by omega)
          have hset : candidate.withMiningNonce (UInt64.ofNat (s + batch.toNat))
              = { candidate with miningNonce := UInt64.ofNat (s + batch.toNat) } :=
            if_neg (by rw [hmineable]; exact Bool.false_ne_true)
          have hnonce : (candidate.withMiningNonce
              (UInt64.ofNat (s + batch.toNat))).miningNonce.toNat = s + batch.toNat := by
            rw [hset]
            exact UInt64.toNat_ofNat_of_lt' hinside
          have hmeets : meetsAt κ (candidate.withMiningNonce (UInt64.ofNat (s + batch.toNat)))
              = meetsAt κ candidate := by
            funext nonce
            rw [meetsAt, withMiningNonce_withMiningNonce, meetsAt, hset]
          have hrest := @ih (candidate.withMiningNonce (UInt64.ofNat (s + batch.toNat)))
            (by rw [hset]; exact hmineable) (by rw [hset]; exact htarget)
          dsimp only at hrest
          rw [hmeets, hnonce] at hrest
          obtain ⟨hsum, hnonces, hlast⟩ := hrest
          rw [Scan.andThen] at hwhole
          have hlater := Scan.ended_scan (meetsAt κ candidate) (calls * batch.toNat) hinside
          rw [← hwhole] at hsum hnonces hlast hlater
          have htrials : trials s (.stopped (s + batch.toNat))
              + trials (s + batch.toNat) whole = trials s whole := by
            cases hlater with
            | found le lt inside meets before => simp only [trials]; omega
            | exhausted some reaches none => simp only [trials]; omega
            | stopped short none => simp only [trials]; omega
          have hfirst : trials s (.stopped (s + batch.toNat)) = batch.toNat := by
            rw [trials, Nat.add_sub_cancel_left]
          refine ⟨?_, ?_, fun _ => ?_⟩
          · rw [hrs, attemptsOf, List.map_cons, List.sum_cons]
            show (resultOf candidate s 0 _).attempts.toNat + attemptsOf _ = _
            rw [hattempts, hsum, htrials]
          · rw [hrs, noncesOfCalls, List.flatMap_cons]
            show List.range' s (resultOf candidate s 0 _).attempts.toNat ++ noncesOfCalls _ = _
            rw [hattempts, hnonces, ← htrials, hfirst, List.range'_append_1]
          · rw [hrs, List.getLast?_cons]
            cases calls with
            | zero =>
                rw [hwhole, Nat.zero_mul]
                exact ⟨_, rfl, rfl, rfl⟩
            | succ calls =>
                obtain ⟨last, hgetLast, hvalue, hnext⟩ := hlast (Nat.succ_pos calls)
                obtain ⟨hsameValue, hsameNext⟩ := resultOf_withMiningNonce candidate
                  (UInt64.ofNat (s + batch.toNat)) (s + batch.toNat) s whole
                rw [hgetLast]
                exact ⟨last, rfl, hvalue.trans hsameValue, hnext.trans hsameNext⟩

/-! ## The search is exact -/

/-- `mine_block` returns a block exactly if one of the nonces in reach meets the target; the
block is the candidate with the least of them, it passes the check of the proof of work, and
the attempts count the nonces tried.  Otherwise the range of nonces is exhausted or the limit
is reached, and then the nonce returned is the first that has not been tried.  The batches of
the mining thread end where one run over all of them would: they try the same nonces, each
once and in order. -/
theorem mining_exact (κ : Crypto) (candidate : Block) (hmineable : candidate.isGenesis = false)
    (htarget : candidate.difficultyTarget = fixedDifficultyTarget candidate.chainId)
    (n : UInt64) :
    let s := candidate.miningNonce.toNat
    let result := mineBlock κ candidate n
    ((∃ b, result.value = .ok b) ↔
      ∃ m, s ≤ m ∧ m < s + n.toNat ∧ m ≤ 2 ^ 64 - 1 ∧ meetsAt κ candidate m = true) ∧
    (∀ b, result.value = .ok b → ∃ m, s ≤ m ∧ m < s + n.toNat ∧ m ≤ 2 ^ 64 - 1 ∧
      meetsAt κ candidate m = true ∧ (∀ k, s ≤ k → k < m → meetsAt κ candidate k = false) ∧
      b = candidate.withMiningNonce (UInt64.ofNat m) ∧ validateProofOfWork κ b = .none ∧
      result.attempts.toNat = m - s + 1) ∧
    (∀ e, result.value = .error e →
      (1 ≤ n.toNat ∧ 2 ^ 64 ≤ s + n.toNat ∧ e = .nonceExhausted ∧ result.nextNonce = none) ∨
      (¬ (1 ≤ n.toNat ∧ 2 ^ 64 ≤ s + n.toNat) ∧ e = .attemptLimitReached ∧
        result.attempts = n ∧ ∃ next, result.nextNonce = some next ∧
          next.toNat = s + n.toNat)) ∧
    ∀ calls, 0 < calls →
      let rs := mineBatches κ 10000 calls candidate
      let single := mineLoop κ candidate (fixedDifficultyTarget candidate.chainId)
        (calls * 10000) candidate.miningNonce 0
      UInt64.ofNat (attemptsOf rs) = single.attempts ∧
        noncesOfCalls rs = List.range' s (attemptsOf rs) ∧
        ∃ last, rs.getLast? = some last ∧ last.2.value = single.value ∧
          last.2.nextNonce = single.nextNonce := by
  intro s result
  have hs : s < nonceCount := candidate.miningNonce.toNat_lt
  have hended := Scan.ended_scan (meetsAt κ candidate) n.toNat hs
  have hattempts := attempts_resultOf n.toNat_lt hended
  have hresult : result = resultOf candidate s 0
      (scan (meetsAt κ candidate) nonceCount n.toNat s) := mineBlock_eq hmineable htarget n
  refine ⟨?_, ?_, ?_, ?_⟩
  · have hfound := Scan.exists_found_iff (meetsAt κ candidate) (n := n.toNat) hs
    rw [hresult]
    constructor
    · rintro ⟨b, hb⟩
      have hsome : ∃ m, scan (meetsAt κ candidate) nonceCount n.toNat s = .found m := by
        generalize scan (meetsAt κ candidate) nonceCount n.toNat s = r at hb
        cases r with
        | found m => exact ⟨m, rfl⟩
        | exhausted => cases hb
        | stopped next => cases hb
      obtain ⟨m, hle, hlt, hinside, hmeets⟩ := hfound.mp hsome
      exact ⟨m, hle, hlt, Nat.le_pred_of_lt hinside, hmeets⟩
    · rintro ⟨m, hle, hlt, hinside, hmeets⟩
      have hbelow : m < nonceCount := Nat.lt_of_le_of_lt hinside (by decide)
      obtain ⟨found, hscan⟩ := hfound.mpr ⟨m, hle, hlt, hbelow, hmeets⟩
      rw [hscan]
      exact ⟨_, rfl⟩
  · intro b hb
    have hwork := mineBlock_ok hb
    rw [hresult] at hb ⊢
    generalize scan (meetsAt κ candidate) nonceCount n.toNat s = r at *
    cases hended with
    | found le lt inside meets before =>
        cases hb
        exact ⟨_, le, lt, Nat.le_pred_of_lt inside, meets, before, rfl, hwork.2.2.2.2, hattempts⟩
    | exhausted => cases hb
    | stopped => cases hb
  · intro e he
    rw [hresult] at he ⊢
    generalize scan (meetsAt κ candidate) nonceCount n.toNat s = r at *
    cases hended with
    | found => cases he
    | exhausted some reaches none =>
        cases he
        exact Or.inl ⟨some, reaches, rfl, rfl⟩
    | stopped short none =>
        cases he
        have hinside : s + n.toNat < nonceCount := by
          rcases short with hzero | hinside
          · omega
          · exact hinside
        refine Or.inr ⟨fun hboth => Nat.not_le.mpr hinside hboth.2, rfl, ?_, _, rfl,
          UInt64.toNat_ofNat_of_lt' hinside⟩
        rw [← UInt64.toNat_inj, hattempts, trials, Nat.add_sub_cancel_left]
  · intro calls hcalls rs single
    have hbatch : 0 < (10000 : UInt64).toNat := by decide
    obtain ⟨hsum, hnonces, hlast⟩ := mineBatches_spec (κ := κ) hbatch calls hmineable htarget
    have hsingle : single = resultOf candidate s 0
        (scan (meetsAt κ candidate) nonceCount (calls * (10000 : UInt64).toNat) s) :=
      mineLoop_eq hmineable _ candidate.miningNonce 0
    refine ⟨?_, ?_, ?_⟩
    · rw [hsum, hsingle]
      generalize scan (meetsAt κ candidate) nonceCount (calls * (10000 : UInt64).toNat) s = r
      cases r with
      | found m => rw [trials, resultOf, Nat.zero_add]
      | exhausted => rw [trials, resultOf, Nat.zero_add]
      | stopped next => rw [trials, resultOf, Nat.zero_add]
    · rw [hsum]
      exact hnonces
    · rw [hsingle]
      exact hlast hcalls

/-- The first block of the regression-test network, two nonces before the one that solves it. -/
def almostMined : Block := minedFirst.withMiningNonce 897

/-- Five attempts are enough, and three are made. -/
theorem mining_exact_mined :
    ∃ b, (mineBlock reference almostMined 5).value = .ok b ∧ b = minedFirst ∧
      validateProofOfWork reference b = .none ∧
      (mineBlock reference almostMined 5).attempts = 3 := by
  have hfacts : almostMined.isGenesis = false ∧
      almostMined.difficultyTarget = fixedDifficultyTarget almostMined.chainId ∧
      almostMined.miningNonce.toNat = 897 ∧ meetsAt reference almostMined 897 = false ∧
      meetsAt reference almostMined 898 = false ∧ meetsAt reference almostMined 899 = true ∧
      almostMined.withMiningNonce (UInt64.ofNat 899) = minedFirst := by
    decide +kernel
  obtain ⟨hmineable, htarget, hstart, hfirst, hsecond, hthird, hmined⟩ := hfacts
  obtain ⟨hfound, hexact, -⟩ := mining_exact reference almostMined hmineable htarget 5
  obtain ⟨b, hb⟩ := hfound.mpr ⟨899, by omega, by rw [hstart]; decide, by decide, hthird⟩
  obtain ⟨m, hle, hlt, -, hmeets, hbefore, rfl, hwork, hattempts⟩ := hexact b hb
  have hm : m = 899 := by
    rcases Nat.lt_trichotomy m 899 with hlow | hsame | hhigh
    · have hcases : m = 897 ∨ m = 898 := by omega
      rcases hcases with rfl | rfl
      · rw [hfirst] at hmeets
        cases hmeets
      · rw [hsecond] at hmeets
        cases hmeets
    · exact hsame
    · have hskipped := hbefore 899 (by omega) hhigh
      rw [hthird] at hskipped
      cases hskipped
  subst hm
  refine ⟨_, hb, hmined, hwork, ?_⟩
  rw [← UInt64.toNat_inj, hattempts, hstart]
  rfl

end BBC
