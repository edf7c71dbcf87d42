/-
# `Tokens` — an output that has to be earned

A thread may put out an item only if it holds a token for it, and a token is made at one
moment: when a section turns a flag of the shared state on.  `Program.Spends held` says
that the rest of a thread gets along with `held` tokens:

    items put out + tokens left + flag before  ≤  tokens held + flag after

Summed up over all threads of a system, the items that are put out in a run and the
tokens that are left are at most what the flag has been turned on for, once
(`System.spends_move`).  The rule does not look at the order in which the threads run.
-/
import BBC.Lib.Sections

namespace Sections

namespace Program

variable {σ ι ω : Type}

/-- The rest of a thread never puts out more items than it holds or earns tokens, in the
states with `I` and for the sections whose effect satisfies `ok`. -/
def Spends (I : σ → Prop) (ok : σ → σ → Prop) (flag : σ → Bool) (item : ω → Bool) :
    Program σ ι ω → Nat → Prop
  | .done, _ => True
  | .step act next, held => ∀ s i, I s → ok s (act s i).1 →
      ∃ left, (act s i).2.1.countP item + left + (flag s).toNat
          ≤ held + (flag (act s i).1).toNat ∧
        (next (act s i).2.2).Spends I ok flag item left

variable {I : σ → Prop} {ok : σ → σ → Prop} {flag : σ → Bool} {item : ω → Bool}

theorem spends_done (held : Nat) : (done : Program σ ι ω).Spends I ok flag item held := trivial

/-- More tokens do no harm. -/
theorem Spends.mono {p : Program σ ι ω} {held held' : Nat} (h : p.Spends I ok flag item held)
    (hle : held ≤ held') : p.Spends I ok flag item held' := by
  cases p with
  | done => exact spends_done held'
  | step act next =>
      intro s i hs hok
      obtain ⟨left, hcount, hleft⟩ := h s i hs hok
      exact ⟨left, by omega, hleft⟩

/-- A section that puts out no item and does not turn the flag off. -/
theorem spends_step {α : Type} {act : σ → ι → σ × List ω × α} {next : α → Program σ ι ω}
    {held : Nat}
    (hact : ∀ s i, I s → ok s (act s i).1 →
      (act s i).2.1.countP item = 0 ∧ (flag s).toNat ≤ (flag (act s i).1).toNat)
    (hnext : ∀ a, (next a).Spends I ok flag item held) :
    (step act next).Spends I ok flag item held := by
  intro s i hs hok
  obtain ⟨hcount, hflag⟩ := hact s i hs hok
  exact ⟨held, by omega, hnext _⟩

theorem spends_last {act : σ → ι → σ × List ω} {held : Nat}
    (hact : ∀ s i, I s → ok s (act s i).1 →
      (act s i).2.countP item + (flag s).toNat ≤ held + (flag (act s i).1).toNat) :
    (last act).Spends I ok flag item held := by
  intro s i hs hok
  exact ⟨0, hact s i hs hok, spends_done 0⟩

theorem Spends.seq {p q : Program σ ι ω} (hq : q.Spends I ok flag item 0) :
    ∀ {held : Nat}, p.Spends I ok flag item held → (p.seq q).Spends I ok flag item held := by
  induction p with
  | done =>
      intro held _
      exact hq.mono (Nat.zero_le held)
  | step act next ih =>
      intro held hp s i hs hok
      obtain ⟨left, hcount, hleft⟩ := hp s i hs hok
      exact ⟨left, hcount, ih _ hleft⟩

/-- Threads that get along with `held` tokens together. -/
def Budget (I : σ → Prop) (ok : σ → σ → Prop) (flag : σ → Bool) (item : ω → Bool) :
    List (Program σ ι ω) → Nat → Prop
  | [], _ => True
  | p :: ps, held => ∃ own rest, own + rest ≤ held ∧ p.Spends I ok flag item own ∧
      Budget I ok flag item ps rest

/-- Threads that need no token. -/
theorem budget_of_free {ps : List (Program σ ι ω)}
    (h : ∀ p ∈ ps, p.Spends I ok flag item 0) : Budget I ok flag item ps 0 := by
  induction ps with
  | nil => trivial
  | cons p ps ih =>
      obtain ⟨hp, hps⟩ := List.forall_mem_cons.mp h
      exact ⟨0, 0, Nat.le_refl 0, hp, ih hps⟩

/-- One thread among others that need none. -/
theorem budget_insert {p : Program σ ι ω} {held : Nat} {qs : List (Program σ ι ω)}
    (ps : List (Program σ ι ω)) (hp : p.Spends I ok flag item held)
    (h : ∀ q ∈ ps ++ qs, q.Spends I ok flag item 0) :
    Budget I ok flag item (ps ++ p :: qs) held := by
  induction ps with
  | nil => exact ⟨held, 0, Nat.le_refl _, hp, budget_of_free h⟩
  | cons p' ps ih =>
      obtain ⟨hp', hps⟩ := List.forall_mem_cons.mp h
      exact ⟨0, held, by omega, hp', ih hps⟩

theorem Budget.concat {q : Program σ ι ω} (hq : q.Spends I ok flag item 0)
    (ps : List (Program σ ι ω)) :
    ∀ {held : Nat}, Budget I ok flag item ps held → Budget I ok flag item (ps ++ [q]) held := by
  induction ps with
  | nil => intro held _; exact ⟨0, 0, Nat.zero_le held, hq, trivial⟩
  | cons p ps ih =>
      intro held h
      obtain ⟨own, rest, hle, hp, hps⟩ := h
      exact ⟨own, rest, hle, hp, ih hps⟩

/-- One thread's share can be exchanged for another. -/
theorem Budget.split (ps : List (Program σ ι ω)) :
    ∀ {k held : Nat} {p : Program σ ι ω}, Budget I ok flag item ps held → ps[k]? = some p →
      ∃ own rest, own + rest ≤ held ∧ p.Spends I ok flag item own ∧
        ∀ {q : Program σ ι ω} {left : Nat}, q.Spends I ok flag item left →
          Budget I ok flag item (ps.set k q) (left + rest) := by
  induction ps with
  | nil => intro k held p _ hk; cases hk
  | cons p' ps ih =>
      intro k held p h hk
      obtain ⟨own, rest, hle, hp, hps⟩ := h
      cases k with
      | zero =>
          cases hk
          exact ⟨own, rest, hle, hp, fun hq => ⟨_, rest, Nat.le_refl _, hq, hps⟩⟩
      | succ k =>
          obtain ⟨own', rest', hle', hp', hset⟩ := ih hps hk
          refine ⟨own', own + rest', by omega, hp', fun {q left} hq => ?_⟩
          exact ⟨own, left + rest', by omega, hp, hset hq⟩

end Program

/-! ## The rule for a system -/

namespace System

open Program

variable {σ ι ω γ : Type} (program : γ → Program σ ι ω)

/-- What one move puts out. -/
def emitted (m : System σ ι ω) : Move γ ι → List ω
  | .start _ => []
  | .advance k i =>
      match m.threads[k]? with
      | some (.step act _) => (act m.state i).2.1
      | _ => []

variable {program} {I : σ → Prop} {ok : σ → σ → Prop} {flag : σ → Bool} {item : ω → Bool}

/-- One move: what is put out is paid for. -/
theorem spends_move (hcalls : ∀ call, (program call).Spends I ok flag item 0)
    {m : System σ ι ω} {held : Nat} (hstate : I m.state)
    (hthreads : Budget I ok flag item m.threads held) {e : Move γ ι}
    (hok : ok m.state (m.move program e).state) :
    ∃ left, (m.emitted e).countP item + left + (flag m.state).toNat
        ≤ held + (flag (m.move program e).state).toNat ∧
      Budget I ok flag item (m.move program e).threads left := by
  cases e with
  | start call => exact ⟨held, by simp [emitted, move], hthreads.concat (hcalls call) _⟩
  | advance k i =>
      rw [move] at hok ⊢
      rw [emitted]
      cases hk : m.threads[k]? with
      | none => exact ⟨held, by simp, hthreads⟩
      | some p =>
          cases p with
          | done => exact ⟨held, by simp, hthreads⟩
          | step act next =>
              rw [hk] at hok
              obtain ⟨own, rest, hle, hp, hset⟩ := Budget.split _ hthreads hk
              obtain ⟨left, hcount, hleft⟩ := hp m.state i hstate hok
              exact ⟨left + rest, by dsimp only; omega, hset hleft⟩

end System

end Sections
