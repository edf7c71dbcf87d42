/-
# `Sections` — threads made of atomic sections

A thread is a `Program`: a sequence of sections, each of which changes a shared
state at once and hands a local result to what follows.  `σ` is the state, `ι`
what the outside decides at a section, `ω` what a section puts out.

`Program.run` runs one thread alone.  A `System` runs many, in any order and
starting new ones at any moment; a property that every section of every thread
keeps then holds in every state the system reaches (`System.keeps`).
-/
import Mathlib.Data.List.Basic

namespace Sections

/-- The rest of a thread. -/
inductive Program (σ ι ω : Type) : Type 1 where
  | done : Program σ ι ω
  | step {α : Type} (act : σ → ι → σ × List ω × α) (next : α → Program σ ι ω) : Program σ ι ω

namespace Program

variable {σ ι ω : Type}

/-- A last section without a local result. -/
def last (act : σ → ι → σ × List ω) : Program σ ι ω :=
  .step (fun s i => ((act s i).1, (act s i).2, ())) fun _ => .done

/-- The thread has ended. -/
def isDone : Program σ ι ω → Bool
  | .done => true
  | .step _ _ => false

theorem eq_done_of_isDone {p : Program σ ι ω} (h : p.isDone = true) : p = .done := by
  cases p with
  | done => rfl
  | step act next => cases h

/-- One thread after another. -/
def seq : Program σ ι ω → Program σ ι ω → Program σ ι ω
  | .done, q => q
  | .step act next, q => .step act fun a => (next a).seq q

/-- A thread on its own; `io k` is what the outside does at section `k`. -/
def run : Program σ ι ω → (Nat → ι) → σ → σ × List ω
  | .done, _, s => (s, [])
  | .step act next, io, s =>
      let r := act s (io 0)
      let rest := (next r.2.2).run (fun k => io (k + 1)) r.1
      (rest.1, r.2.1 ++ rest.2)

theorem run_step {α : Type} (act : σ → ι → σ × List ω × α) (next : α → Program σ ι ω)
    (io : Nat → ι) (s : σ) :
    (step act next).run io s
      = (((next (act s (io 0)).2.2).run (fun k => io (k + 1)) (act s (io 0)).1).1,
          (act s (io 0)).2.1
            ++ ((next (act s (io 0)).2.2).run (fun k => io (k + 1)) (act s (io 0)).1).2) := rfl

/-- Every section of the thread keeps `I` as long as the outside behaves as `P`
says, whatever the local results are. -/
def Keeps (P : ι → Prop) (I : σ → Prop) : Program σ ι ω → Prop
  | .done => True
  | .step act next => (∀ s i, P i → I s → I (act s i).1) ∧ ∀ a, (next a).Keeps P I

variable {P : ι → Prop} {I : σ → Prop}

theorem keeps_done : (done : Program σ ι ω).Keeps P I := trivial

theorem keeps_step {α : Type} {act : σ → ι → σ × List ω × α} {next : α → Program σ ι ω}
    (hact : ∀ s i, P i → I s → I (act s i).1) (hnext : ∀ a, (next a).Keeps P I) :
    (step act next).Keeps P I :=
  ⟨hact, hnext⟩

theorem keeps_last {act : σ → ι → σ × List ω} (hact : ∀ s i, P i → I s → I (act s i).1) :
    (last act).Keeps P I :=
  keeps_step hact fun _ => keeps_done

theorem Keeps.seq {p q : Program σ ι ω} (hp : p.Keeps P I) (hq : q.Keeps P I) :
    (p.seq q).Keeps P I := by
  induction p with
  | done => exact hq
  | step act next ih => exact ⟨hp.1, fun a => ih a (hp.2 a)⟩

/-- What every section keeps, the whole thread keeps. -/
theorem Keeps.run {p : Program σ ι ω} (h : p.Keeps P I) :
    ∀ {io : Nat → ι} {s : σ}, (∀ k, P (io k)) → I s → I (p.run io s).1 := by
  induction p with
  | done => intro io s _ hs; exact hs
  | step act next ih =>
      intro io s hio hs
      exact ih _ (h.2 _) (fun k => hio (k + 1)) (h.1 s (io 0) (hio 0) hs)

/-- Everything that the thread puts out satisfies `Q`, whatever the local results are. -/
def Emits (Q : ω → Prop) : Program σ ι ω → Prop
  | .done => True
  | .step act next => (∀ s i, ∀ o ∈ (act s i).2.1, Q o) ∧ ∀ a, (next a).Emits Q

variable {Q : ω → Prop}

theorem emits_done : (done : Program σ ι ω).Emits Q := trivial

theorem emits_step {α : Type} {act : σ → ι → σ × List ω × α} {next : α → Program σ ι ω}
    (hact : ∀ s i, ∀ o ∈ (act s i).2.1, Q o) (hnext : ∀ a, (next a).Emits Q) :
    (step act next).Emits Q :=
  ⟨hact, hnext⟩

/-- A section that puts out nothing. -/
theorem emits_silent {α : Type} {act : σ → ι → σ × List ω × α} {next : α → Program σ ι ω}
    (hact : ∀ s i, (act s i).2.1 = []) (hnext : ∀ a, (next a).Emits Q) :
    (step act next).Emits Q := by
  refine ⟨?_, hnext⟩
  intro s i o ho
  rw [hact s i] at ho
  exact absurd ho List.not_mem_nil

theorem emits_last {act : σ → ι → σ × List ω} (hact : ∀ s i, ∀ o ∈ (act s i).2, Q o) :
    (last act).Emits Q :=
  emits_step hact fun _ => emits_done

theorem Emits.run {p : Program σ ι ω} (h : p.Emits Q) :
    ∀ (io : Nat → ι) (s : σ), ∀ o ∈ (p.run io s).2, Q o := by
  induction p with
  | done => intro io s o ho; exact absurd ho List.not_mem_nil
  | step act next ih =>
      intro io s o ho
      rw [run_step] at ho
      rcases List.mem_append.mp ho with ho | ho
      · exact h.1 s (io 0) o ho
      · exact ih _ (h.2 _) _ _ o ho

/-- Two threads one after another; the second one meets a later outside. -/
theorem run_seq (q : Program σ ι ω) {p : Program σ ι ω} :
    ∀ (io : Nat → ι) (s : σ), ∃ k : Nat, (p.seq q).run io s
      = ((q.run (fun i => io (k + i)) (p.run io s).1).1,
          (p.run io s).2 ++ (q.run (fun i => io (k + i)) (p.run io s).1).2) := by
  induction p with
  | done =>
      intro io s
      refine ⟨0, ?_⟩
      simp only [Nat.zero_add]
      rfl
  | step act next ih =>
      intro io s
      obtain ⟨k, hk⟩ := ih (act s (io 0)).2.2 (fun i => io (i + 1)) (act s (io 0)).1
      refine ⟨k + 1, ?_⟩
      have hshift : (fun i => io (k + 1 + i)) = fun i => io (k + i + 1) := by
        funext i
        congr 1
        omega
      rw [seq, run_step, run_step, hk, hshift, List.append_assoc]

end Program

/-! ## Many threads -/

/-- The shared state and the threads that run on it. -/
structure System (σ ι ω : Type) where
  state : σ
  threads : List (Program σ ι ω)

/-- What happens next: a call starts a thread, or thread `k` runs its next section. -/
inductive Move (γ ι : Type) where
  | start (call : γ)
  | advance (k : Nat) (i : ι)

namespace System

variable {σ ι ω γ : Type} (program : γ → Program σ ι ω)

/-- One move; a thread that is done has no next section. -/
def move (m : System σ ι ω) : Move γ ι → System σ ι ω
  | .start call => { m with threads := m.threads ++ [program call] }
  | .advance k i =>
      match m.threads[k]? with
      | some (.step act next) =>
          { state := (act m.state i).1, threads := m.threads.set k (next (act m.state i).2.2) }
      | _ => m

/-- A run of moves. -/
def run (m : System σ ι ω) (moves : List (Move γ ι)) : System σ ι ω :=
  moves.foldl (move program) m

variable {program} {P : ι → Prop} {I : σ → Prop}

/-- The threads after a move are old ones, rests of old ones, or started by a call. -/
theorem keeps_threads (hcalls : ∀ call, (program call).Keeps P I) {m : System σ ι ω}
    (hthreads : ∀ p ∈ m.threads, p.Keeps P I) (e : Move γ ι) :
    ∀ p ∈ (m.move program e).threads, p.Keeps P I := by
  cases e with
  | start call =>
      intro p hp
      rcases List.mem_append.mp hp with hp | hp
      · exact hthreads p hp
      · rw [List.mem_singleton.mp hp]
        exact hcalls call
  | advance k i =>
      rw [move]
      cases hk : m.threads[k]? with
      | none => exact hthreads
      | some p =>
          cases p with
          | done => exact hthreads
          | step act next =>
              intro q hq
              rcases List.mem_or_eq_of_mem_set hq with hq | rfl
              · exact hthreads q hq
              · exact (hthreads _ (List.mem_of_getElem? hk)).2 _

/-- What one move keeps: the property, and that all threads keep it. -/
theorem keeps_move (hcalls : ∀ call, (program call).Keeps P I) {m : System σ ι ω}
    (hstate : I m.state) (hthreads : ∀ p ∈ m.threads, p.Keeps P I) {e : Move γ ι}
    (he : ∀ k i, e = .advance k i → P i) :
    I (m.move program e).state ∧ ∀ p ∈ (m.move program e).threads, p.Keeps P I := by
  refine ⟨?_, keeps_threads hcalls hthreads e⟩
  cases e with
  | start call => exact hstate
  | advance k i =>
      rw [move]
      cases hk : m.threads[k]? with
      | none => exact hstate
      | some p =>
          cases p with
          | done => exact hstate
          | step act next =>
              exact (hthreads _ (List.mem_of_getElem? hk)).1 _ _ (he k i rfl) hstate

/-- The invariant rule for interleavings. -/
theorem keeps (hcalls : ∀ call, (program call).Keeps P I) (moves : List (Move γ ι)) :
    ∀ {m : System σ ι ω}, I m.state → (∀ p ∈ m.threads, p.Keeps P I) →
      (∀ k i, Move.advance k i ∈ moves → P i) → I (m.run program moves).state := by
  induction moves with
  | nil => intro m hstate _ _; exact hstate
  | cons e moves ih =>
      intro m hstate hthreads hP
      have hone := keeps_move hcalls hstate hthreads (e := e)
        fun k i he => hP k i (he ▸ List.mem_cons_self)
      exact ih hone.1 hone.2 fun k i hmem => hP k i (List.mem_cons_of_mem e hmem)

end System

end Sections
