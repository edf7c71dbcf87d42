/-
# `Testimony` — what a thread says about what it has seen

A thread looks at the shared state in one section and speaks about it in a later one.  By
then the state may be another, but what was seen was true once.  `seen` collects all that
has been true, section by section, and only grows:

    All R                what every section does, whatever the local results are
    Vouched view I R     what every section does with what has been seen up to it, and
                         what it leaves to the rest of the thread
    Surely I Q           before it ends, the thread puts out something of which `Q` holds
    Throughout I V       `V` holds of the thread and of each of its rests

In the last three the local results are those that a section really has in a state with
`I`.  `vouched_move`, `surely_move` and `throughout_move` are the rules for many threads.
-/
import BBC.Lib.Tokens
import Mathlib.Data.Set.Basic

namespace Sections

namespace Program

variable {σ ι ω τ : Type}

/-- The thread has nothing more to do. -/
def ended : Program σ ι ω → Bool
  | .done => true
  | .step _ _ => false

/-- Every section changes the state and puts something out as `R` says. -/
def All (R : σ → σ → List ω → Prop) : Program σ ι ω → Prop
  | .done => True
  | .step act next => (∀ s i, R s (act s i).1 (act s i).2.1) ∧ ∀ a, (next a).All R

/-- Every section keeps `I`, and does what `R` says about all that has been in `view`. -/
def Vouched (view : σ → Set τ) (I : σ → Prop)
    (R : Set τ → σ → σ → List ω → Program σ ι ω → Prop) : Program σ ι ω → Set τ → Prop
  | .done, _ => True
  | .step act next, seen => ∀ s i, I s →
      I (act s i).1 ∧
        R (seen ∪ view (act s i).1) s (act s i).1 (act s i).2.1 (next (act s i).2.2) ∧
        (next (act s i).2.2).Vouched view I R (seen ∪ view (act s i).1)

/-- Whatever happens, something of which `Q` holds is put out. -/
def Surely (I : σ → Prop) (Q : ω → Prop) : Program σ ι ω → Prop
  | .done => False
  | .step act next => ∀ s i, I s →
      (∃ o ∈ (act s i).2.1, Q o) ∨ (next (act s i).2.2).Surely I Q

/-- The thread and all that can be left of it satisfy `V`, and every section keeps `I`. -/
def Throughout (I : σ → Prop) (V : Program σ ι ω → Prop) : Program σ ι ω → Prop
  | .done => V .done
  | .step act next => V (.step act next) ∧ ∀ s i, I s →
      I (act s i).1 ∧ (next (act s i).2.2).Throughout I V

variable {view : σ → Set τ} {I : σ → Prop} {R : Set τ → σ → σ → List ω → Program σ ι ω → Prop}
  {F : σ → σ → List ω → Prop} {Q : ω → Prop} {V : Program σ ι ω → Prop} {p : Program σ ι ω}
  {seen seen' : Set τ}

theorem ended_iff : p.ended = true ↔ p = .done := by
  cases p with
  | done => exact ⟨fun _ => rfl, fun _ => rfl⟩
  | step act next => exact ⟨fun h => (by cases h), fun h => (by cases h)⟩

theorem all_done : (done : Program σ ι ω).All F := trivial

theorem all_step {α : Type} {act : σ → ι → σ × List ω × α} {next : α → Program σ ι ω}
    (hact : ∀ s i, F s (act s i).1 (act s i).2.1) (hnext : ∀ a, (next a).All F) :
    (step act next).All F :=
  ⟨hact, hnext⟩

theorem all_last {act : σ → ι → σ × List ω} (hact : ∀ s i, F s (act s i).1 (act s i).2) :
    (last act).All F :=
  all_step hact fun _ => all_done

theorem All.seq {q : Program σ ι ω} (hp : p.All F) (hq : q.All F) : (p.seq q).All F := by
  induction p with
  | done => exact hq
  | step act next ih => exact ⟨hp.1, fun a => ih a (hp.2 a)⟩

/-- What does not depend on what has been seen. -/
theorem All.vouched (hI : ∀ s s' os, F s s' os → I s → I s')
    (hR : ∀ seen s s' os rest, F s s' os → I s → R seen s s' os rest) (h : p.All F) :
    ∀ seen, p.Vouched view I R seen := by
  induction p with
  | done => intro seen; exact trivial
  | step act next ih =>
      intro seen s i hs
      have hact := h.1 s i
      exact ⟨hI _ _ _ hact hs, hR _ _ _ _ _ hact hs, ih _ (h.2 _) _⟩

/-- What follows from what all sections do holds of every rest. -/
theorem All.throughout (hI : ∀ s s' os, F s s' os → I s → I s')
    (hV : ∀ q : Program σ ι ω, q.All F → V q) (h : p.All F) : p.Throughout I V := by
  induction p with
  | done => exact hV .done trivial
  | step act next ih => exact ⟨hV _ h, fun s i hs => ⟨hI _ _ _ (h.1 s i) hs, ih _ (h.2 _)⟩⟩

theorem Throughout.self (h : p.Throughout I V) : V p := by
  cases p with
  | done => exact h
  | step act next => exact h.1

theorem throughout_last {act : σ → ι → σ × List ω} (hself : V (last act)) (hdone : V .done)
    (hact : ∀ s i, I s → I (act s i).1) : (last act).Throughout I V :=
  ⟨hself, fun s i hs => ⟨hact s i hs, hdone⟩⟩

theorem vouched_done : (done : Program σ ι ω).Vouched view I R seen := trivial

theorem vouched_last {act : σ → ι → σ × List ω}
    (hact : ∀ s i, I s →
      I (act s i).1 ∧ R (seen ∪ view (act s i).1) s (act s i).1 (act s i).2 .done) :
    (last act).Vouched view I R seen :=
  fun s i hs => ⟨(hact s i hs).1, (hact s i hs).2, vouched_done⟩

/-- To have seen more does no harm. -/
theorem Vouched.mono
    (hR : ∀ seen seen' s s' os rest, seen ⊆ seen' → R seen s s' os rest → R seen' s s' os rest) :
    ∀ {seen seen' : Set τ}, seen ⊆ seen' → p.Vouched view I R seen → p.Vouched view I R seen' := by
  induction p with
  | done => intro seen seen' _ _; exact trivial
  | step act next ih =>
      intro seen seen' hsub h s i hs
      obtain ⟨hkept, hdone, hrest⟩ := h s i hs
      have hgrown : seen ∪ view (act s i).1 ⊆ seen' ∪ view (act s i).1 :=
        Set.union_subset_union_left _ hsub
      exact ⟨hkept, hR _ _ _ _ _ _ hgrown hdone, ih _ hgrown hrest⟩

theorem surely_last {act : σ → ι → σ × List ω} (hact : ∀ s i, I s → ∃ o ∈ (act s i).2, Q o) :
    (last act).Surely I Q :=
  fun s i hs => Or.inl (hact s i hs)

end Program

/-! ## Many threads -/

namespace System

open Program

variable {σ ι ω γ τ : Type} {program : γ → Program σ ι ω} {view : σ → Set τ} {I : σ → Prop}
  {R : Set τ → σ → σ → List ω → Program σ ι ω → Prop} {Q : ω → Prop}
  {V : Program σ ι ω → Prop} {m : System σ ι ω} {seen : Set τ}

/-- One move: it is made by a section that does what it may, and the threads have seen what is
there after it. -/
theorem vouched_move
    (hR : ∀ seen seen' s s' os rest, seen ⊆ seen' → R seen s s' os rest → R seen' s s' os rest)
    (hI : I m.state) (hthreads : ∀ p ∈ m.threads, p.Vouched view I R seen) {e : Move γ ι}
    (hcall : ∀ call, e = .start call → (program call).Vouched view I R seen) :
    I (m.move program e).state ∧
      (∀ p ∈ (m.move program e).threads,
        p.Vouched view I R (seen ∪ view (m.move program e).state)) ∧
      ((m.move program e).state = m.state ∧ m.emitted e = [] ∨
        ∃ rest ∈ (m.move program e).threads,
          R (seen ∪ view (m.move program e).state) m.state (m.move program e).state
            (m.emitted e) rest) := by
  have hmore : ∀ p : Program σ ι ω, p.Vouched view I R seen → ∀ s : σ,
      p.Vouched view I R (seen ∪ view s) :=
    fun p hp s => hp.mono hR Set.subset_union_left
  have hstill : ∀ p ∈ m.threads, p.Vouched view I R (seen ∪ view m.state) :=
    fun p hp => hmore p (hthreads p hp) m.state
  cases e with
  | start call =>
      refine ⟨hI, ?_, Or.inl ⟨rfl, rfl⟩⟩
      intro p hp
      rcases List.mem_append.mp hp with hp | hp
      · exact hstill p hp
      · rw [List.mem_singleton.mp hp]
        exact hmore _ (hcall call rfl) m.state
  | advance k i =>
      rw [move, emitted]
      cases hk : m.threads[k]? with
      | none => exact ⟨hI, hstill, Or.inl ⟨rfl, rfl⟩⟩
      | some p =>
          cases p with
          | done => exact ⟨hI, hstill, Or.inl ⟨rfl, rfl⟩⟩
          | step act next =>
              obtain ⟨hkept, hdone, hrest⟩ := hthreads _ (List.mem_of_getElem? hk) m.state i hI
              have hlt : k < m.threads.length := (List.getElem?_eq_some_iff.mp hk).1
              refine ⟨hkept, ?_, Or.inr ⟨_, List.mem_set hlt _, hdone⟩⟩
              intro q hq
              rcases List.mem_or_eq_of_mem_set hq with hq | rfl
              · exact hmore q (hthreads q hq) _
              · exact hrest

/-- One move: the threads are old ones, rests of old ones, or started by a call. -/
theorem throughout_move (hI : I m.state) (hthreads : ∀ p ∈ m.threads, p.Throughout I V)
    {e : Move γ ι} (hcall : ∀ call, e = .start call → (program call).Throughout I V) :
    I (m.move program e).state ∧ ∀ p ∈ (m.move program e).threads, p.Throughout I V := by
  cases e with
  | start call =>
      refine ⟨hI, fun p hp => ?_⟩
      rcases List.mem_append.mp hp with hp | hp
      · exact hthreads p hp
      · rw [List.mem_singleton.mp hp]
        exact hcall call rfl
  | advance k i =>
      rw [move]
      cases hk : m.threads[k]? with
      | none => exact ⟨hI, hthreads⟩
      | some p =>
          cases p with
          | done => exact ⟨hI, hthreads⟩
          | step act next =>
              obtain ⟨hkept, hrest⟩ := (hthreads _ (List.mem_of_getElem? hk)).2 m.state i hI
              refine ⟨hkept, fun q hq => ?_⟩
              rcases List.mem_or_eq_of_mem_set hq with hq | rfl
              · exact hthreads q hq
              · exact hrest

/-- One move: a thread that owes something still does, or has put it out. -/
theorem surely_move (hI : I m.state) {p : Program σ ι ω} (hp : p ∈ m.threads) (h : p.Surely I Q)
    (e : Move γ ι) :
    (∃ q ∈ (m.move program e).threads, q.Surely I Q) ∨ ∃ o ∈ m.emitted e, Q o := by
  cases e with
  | start call => exact Or.inl ⟨p, List.mem_append_left _ hp, h⟩
  | advance k i =>
      rw [move, emitted]
      cases hk : m.threads[k]? with
      | none => exact Or.inl ⟨p, hp, h⟩
      | some q =>
          cases q with
          | done => exact Or.inl ⟨p, hp, h⟩
          | step act next =>
              obtain ⟨j, hj⟩ := List.mem_iff_getElem?.mp hp
              by_cases hjk : j = k
              · subst hjk
                rw [hk] at hj
                cases hj
                rcases h m.state i hI with hout | hrest
                · exact Or.inr hout
                · have hlt : j < m.threads.length := (List.getElem?_eq_some_iff.mp hk).1
                  exact Or.inl ⟨_, List.mem_set hlt _, hrest⟩
              · refine Or.inl ⟨p, ?_, h⟩
                refine List.mem_iff_getElem?.mpr ⟨j, ?_⟩
                rw [List.getElem?_set_ne (Ne.symm hjk)]
                exact hj

end System

end Sections
