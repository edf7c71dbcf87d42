/-
# `Fields` — one pass over separated fields

A scanner reads a list once.  Inside a field it feeds a small automaton; at the separator
the automaton must stand in a good state, and starts again; at the end it must stand in a
good state too.

    a b . c . d e      two separators, three fields

What it accepts is a sequence of fields, each accepted by the automaton on its own, with the
separator between them (`scan_eq_some_iff`); the number it returns counts the separators.
-/
import Mathlib.Data.List.Basic

namespace Fields

variable {σ α : Type*}

/-- The automaton of one field. -/
structure Automaton (σ α : Type*) where
  start : σ
  feed : σ → α → Option σ
  good : σ → Bool

/-- The automaton, standing in `s`, reads the field to its end. -/
def Automaton.Accepts (A : Automaton σ α) (s : σ) (field : List α) : Prop :=
  ∃ t, field.foldlM A.feed s = some t ∧ A.good t = true

/-- One pass; `n` separators have gone by. -/
def scan [DecidableEq α] (A : Automaton σ α) (separator : α) : Nat → σ → List α → Option Nat
  | n, s, [] => if A.good s then some n else none
  | n, s, a :: rest =>
      if a = separator then
        if A.good s then scan A separator (n + 1) A.start rest else none
      else
        match A.feed s a with
        | none => none
        | some t => scan A separator n t rest

variable {A : Automaton σ α} {s t : σ} {a : α} {field : List α}

/-! ## One field -/

theorem Automaton.accepts_nil : A.Accepts s [] ↔ A.good s = true := by
  constructor
  · rintro ⟨t, ht, hgood⟩
    cases ht
    exact hgood
  · intro hgood
    exact ⟨s, rfl, hgood⟩

theorem Automaton.accepts_cons :
    A.Accepts s (a :: field) ↔ ∃ t, A.feed s a = some t ∧ A.Accepts t field := by
  constructor
  · rintro ⟨u, hu, hgood⟩
    rw [List.foldlM_cons] at hu
    obtain ⟨t, ht, hu⟩ := Option.bind_eq_some_iff.mp hu
    exact ⟨t, ht, u, hu, hgood⟩
  · rintro ⟨t, ht, u, hu, hgood⟩
    refine ⟨u, ?_, hgood⟩
    rw [List.foldlM_cons]
    exact Option.bind_eq_some_iff.mpr ⟨t, ht, hu⟩

/-- What the automaton has read grows at the end. -/
theorem foldlM_concat {feed : σ → α → Option σ} {u : σ} :
    (field ++ [a]).foldlM feed s = some u ↔
      ∃ t, field.foldlM feed s = some t ∧ feed t a = some u := by
  rw [List.foldlM_append, Option.bind_eq_bind, Option.bind_eq_some_iff]
  constructor
  · rintro ⟨t, ht, hu⟩
    rw [List.foldlM_cons] at hu
    obtain ⟨v, hv, hu⟩ := Option.bind_eq_some_iff.mp hu
    cases hu
    exact ⟨t, ht, hv⟩
  · rintro ⟨t, ht, hu⟩
    refine ⟨t, ht, ?_⟩
    rw [List.foldlM_cons]
    exact Option.bind_eq_some_iff.mpr ⟨u, hu, rfl⟩

/-! ## The whole list -/

section Separated

variable [DecidableEq α] {separator : α}

/-- The pass, in terms of the list split at the separators. -/
theorem scan_eq_some_iff_splitOn (l : List α) :
    ∀ {n m : Nat} {s : σ}, scan A separator n s l = some m ↔
      ∃ first rest, l.splitOn separator = first :: rest ∧ A.Accepts s first ∧
        (∀ field ∈ rest, A.Accepts A.start field) ∧ n + rest.length = m := by
  induction l with
  | nil =>
      intro n m s
      rw [scan, List.splitOn_nil]
      constructor
      · intro h
        split at h
        · rename_i hgood
          cases h
          exact ⟨[], [], rfl, Automaton.accepts_nil.mpr hgood,
            fun _ hmem => absurd hmem List.not_mem_nil, rfl⟩
        · cases h
      · rintro ⟨first, rest, hsplit, haccept, -, rfl⟩
        cases hsplit
        rw [if_pos (Automaton.accepts_nil.mp haccept)]
        rfl
  | cons a l ih =>
      intro n m s
      rw [scan, List.splitOn_cons_eq_if_modifyHead]
      by_cases ha : a = separator
      · -- the field ends here: what follows is scanned from the start state
        rw [if_pos ha, if_pos (beq_iff_eq.mpr ha)]
        constructor
        · intro h
          split at h
          · rename_i hgood
            obtain ⟨first, rest, hsplit, hfirst, hrest, hcount⟩ := ih.mp h
            refine ⟨[], first :: rest, by rw [hsplit], Automaton.accepts_nil.mpr hgood, ?_, ?_⟩
            · intro field hfield
              rcases List.mem_cons.mp hfield with rfl | hfield
              · exact hfirst
              · exact hrest field hfield
            · rw [List.length_cons]
              omega
          · cases h
        · rintro ⟨first, rest, hsplit, hfirst, hrest, hcount⟩
          cases hsplit
          rw [if_pos (Automaton.accepts_nil.mp hfirst)]
          obtain ⟨next, later, hlater⟩ :=
            List.exists_cons_of_ne_nil (List.splitOn_ne_nil separator l)
          rw [hlater] at hrest hcount
          refine ih.mpr ⟨next, later, hlater, hrest next List.mem_cons_self, ?_, ?_⟩
          · intro field hfield
            exact hrest field (List.mem_cons_of_mem _ hfield)
          · rw [List.length_cons] at hcount
            omega
      · -- one character more of the same field
        rw [if_neg ha, if_neg (mt beq_iff_eq.mp ha)]
        constructor
        · intro h
          split at h
          · cases h
          · rename_i t ht
            obtain ⟨first, rest, hsplit, hfirst, hrest, hcount⟩ := ih.mp h
            exact ⟨a :: first, rest, by rw [hsplit]; rfl,
              Automaton.accepts_cons.mpr ⟨t, ht, hfirst⟩, hrest, hcount⟩
        · rintro ⟨first, rest, hsplit, hfirst, hrest, hcount⟩
          obtain ⟨next, later, hlater⟩ :=
            List.exists_cons_of_ne_nil (List.splitOn_ne_nil separator l)
          rw [hlater] at hsplit
          cases hsplit
          obtain ⟨t, ht, hnext⟩ := Automaton.accepts_cons.mp hfirst
          rw [ht]
          exact ih.mpr ⟨next, rest, hlater, hnext, hrest, hcount⟩

/-- A separator ends no field and is part of none. -/
theorem not_mem_of_mem_splitOn (l : List α) :
    ∀ field ∈ l.splitOn separator, separator ∉ field := by
  induction l with
  | nil =>
      intro field hfield
      rw [List.splitOn_nil, List.mem_singleton] at hfield
      rw [hfield]
      exact List.not_mem_nil
  | cons a l ih =>
      intro field hfield
      rw [List.splitOn_cons_eq_if_modifyHead] at hfield
      split at hfield
      · rcases List.mem_cons.mp hfield with rfl | hfield
        · exact List.not_mem_nil
        · exact ih field hfield
      · rename_i ha
        obtain ⟨next, later, hlater⟩ := List.exists_cons_of_ne_nil (List.splitOn_ne_nil separator l)
        rw [hlater] at hfield ih
        rcases List.mem_cons.mp hfield with rfl | hfield
        · intro hmem
          rcases List.mem_cons.mp hmem with heq | hmem
          · exact ha (beq_iff_eq.mpr heq.symm)
          · exact ih next List.mem_cons_self hmem
        · exact ih field (List.mem_cons_of_mem _ hfield)

/-- From the start the pass accepts `m + 1` fields, each on its own, with the separator
between them. -/
theorem scan_eq_some_iff {l : List α} {m : Nat} :
    scan A separator 0 A.start l = some m ↔
      ∃ fields, l = List.intercalate [separator] fields ∧ fields.length = m + 1 ∧
        ∀ field ∈ fields, A.Accepts A.start field ∧ separator ∉ field := by
  rw [scan_eq_some_iff_splitOn]
  constructor
  · rintro ⟨first, rest, hsplit, hfirst, hrest, rfl⟩
    refine ⟨first :: rest, ?_, by rw [List.length_cons, Nat.zero_add], ?_⟩
    · rw [← hsplit]
      exact (List.intercalate_splitOn separator).symm
    · intro field hfield
      refine ⟨?_, not_mem_of_mem_splitOn l field (hsplit ▸ hfield)⟩
      rcases List.mem_cons.mp hfield with rfl | hfield
      · exact hfirst
      · exact hrest field hfield
  · rintro ⟨fields, rfl, hlength, hfields⟩
    obtain ⟨first, rest, rfl⟩ := List.exists_cons_of_length_eq_add_one hlength
    refine ⟨first, rest, ?_, (hfields first List.mem_cons_self).1, ?_, ?_⟩
    · exact List.splitOn_intercalate separator (fun field hfield => (hfields field hfield).2)
        (List.cons_ne_nil first rest)
    · intro field hfield
      exact (hfields field (List.mem_cons_of_mem _ hfield)).1
    · rw [List.length_cons] at hlength
      omega

end Separated

/-! ## The two ends of a separated list -/

theorem head?_intercalate {separator : List α} {first : List α} {rest : List (List α)}
    (hne : first ≠ []) : (List.intercalate separator (first :: rest)).head? = first.head? := by
  cases rest with
  | nil => rw [List.intercalate_singleton]
  | cons next rest =>
      rw [List.intercalate_cons_cons, List.append_assoc, List.head?_append_of_ne_nil _ hne]

theorem getLast?_intercalate {separator : List α} {fields : List (List α)} {last : List α}
    (hne : last ≠ []) :
    (List.intercalate separator (fields ++ [last])).getLast? = last.getLast? := by
  induction fields with
  | nil => rw [List.nil_append, List.intercalate_singleton]
  | cons field fields ih =>
      have hcons : fields ++ [last] ≠ [] :=
        List.append_ne_nil_of_right_ne_nil _ (List.cons_ne_nil _ _)
      obtain ⟨a, ha⟩ := Option.isSome_iff_exists.mp (List.getLast?_isSome.mpr hne)
      rw [ha] at ih ⊢
      rw [List.cons_append, List.intercalate_cons_of_ne_nil hcons, List.getLast?_append, ih]
      rfl

end Fields
