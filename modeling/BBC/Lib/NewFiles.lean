/-
# `NewFiles` — files that are created and never replaced

`create` is the usual way to write a file that must not exist yet: look, open, write,
flush, and remove what was written if the writing has failed.

    exists?   open    write + flush        file afterwards
    yes       -       -                    as it was
    no        fails   -                    none
    no        ok      fails after n bytes  none, or the first n bytes if the removal fails too
    no        ok      ok                   the whole

A `Disk` maps names to contents.  A file that is there stays as it is in every run of
`create`s (`kept_run`).
-/
import BBC.Lib.Runs
import Mathlib.Logic.Function.Basic

namespace NewFiles

/-- What the outside world does to one `create`. -/
structure CreateIo where
  /-- The look at the name succeeds. -/
  existsOk : Bool := true
  openOk : Bool := true
  /-- `some n`: the stream fails after `n` bytes have reached the file. -/
  shortWrite : Option Nat := none
  /-- The removal of a file that was not written whole succeeds. -/
  removeOk : Bool := true

/-- What a `create` reports. -/
inductive Created where
  | done
  | alreadyExists
  | failed
  deriving DecidableEq, Repr

/-- The file at the name, before and after. -/
def create (io : CreateIo) (file : Option (List UInt8)) (encoded : List UInt8) :
    Option (List UInt8) × Created :=
  if ¬ io.existsOk then (file, .failed)
  else if file.isSome then (file, .alreadyExists)
  else if ¬ io.openOk then (none, .failed)
  else
    match io.shortWrite with
    | some n => (if io.removeOk then none else some (encoded.take n), .failed)
    | none => (some encoded, .done)

variable {io : CreateIo} {file : Option (List UInt8)} {encoded : List UInt8}

/-- A file that is there stays. -/
theorem create_of_some (io : CreateIo) (bytes encoded : List UInt8) :
    (create io (some bytes) encoded).1 = some bytes := by
  unfold create
  split
  · rfl
  · rfl

theorem create_done (h : (create io file encoded).2 = .done) :
    file = none ∧ (create io file encoded).1 = some encoded := by
  unfold create at h ⊢
  split at h
  · cases h
  split at h
  · cases h
  rename_i hexists hnone
  rw [if_neg hexists, if_neg hnone]
  split at h
  · cases h
  rename_i hopen
  rw [if_neg hopen]
  cases hwrite : io.shortWrite with
  | some n =>
      rw [hwrite] at h
      cases h
  | none => exact ⟨by simpa using hnone, rfl⟩

/-- What is left behind when nothing is reported as done: the file as it was, or the
beginning of the new one. -/
theorem create_of_ne_done (h : (create io file encoded).2 ≠ .done) :
    (create io file encoded).1 = file ∨
      ∃ n, io.shortWrite = some n ∧ io.removeOk = false ∧ file = none ∧
        (create io file encoded).1 = some (encoded.take n) := by
  unfold create at h ⊢
  split
  · exact Or.inl rfl
  split
  · exact Or.inl rfl
  rename_i hexists hnone
  have hfile : file = none := by simpa using hnone
  split
  · exact Or.inl hfile.symm
  rename_i hopen
  rw [if_neg hexists, if_neg hnone, if_neg hopen] at h
  cases hwrite : io.shortWrite with
  | none =>
      rw [hwrite] at h
      exact absurd rfl h
  | some n =>
      dsimp only
      cases hremove : io.removeOk with
      | true =>
          rw [if_pos rfl]
          exact Or.inl hfile.symm
      | false => exact Or.inr ⟨n, rfl, rfl, hfile, if_neg Bool.false_ne_true⟩

/-! ## A disk -/

/-- The files under their names. -/
abbrev Disk (ρ : Type) := ρ → Option (List UInt8)

/-- A call of `create`. -/
structure Call (ρ : Type) where
  path : ρ
  encoded : List UInt8
  io : CreateIo := {}

variable {ρ : Type} [DecidableEq ρ]

/-- What the call reports. -/
def Call.result (disk : Disk ρ) (call : Call ρ) : Created :=
  (create call.io (disk call.path) call.encoded).2

/-- The disk after the call. -/
def step (disk : Disk ρ) (call : Call ρ) : Disk ρ :=
  Function.update disk call.path (create call.io (disk call.path) call.encoded).1

theorem kept_step {disk : Disk ρ} {path : ρ} {bytes : List UInt8} (h : disk path = some bytes)
    (call : Call ρ) : step disk call path = some bytes := by
  unfold step
  by_cases hpath : path = call.path
  · subst hpath
    rw [Function.update_self, h]
    exact create_of_some _ _ _
  · rw [Function.update_of_ne hpath]
    exact h

/-- A file that is there stays as it is. -/
theorem kept_run (calls : List (Call ρ)) :
    ∀ {disk : Disk ρ} {path : ρ} {bytes : List UInt8}, disk path = some bytes →
      Runs.run step disk calls path = some bytes := by
  induction calls with
  | nil => intro disk path bytes h; exact h
  | cons call calls ih =>
      intro disk path bytes h
      exact ih (kept_step h call)

/-- So what a call has written is there from then on. -/
theorem written_run {disk : Disk ρ} {call : Call ρ} (h : call.result disk = .done)
    (calls : List (Call ρ)) :
    Runs.run step (step disk call) calls call.path = some call.encoded := by
  refine kept_run calls ?_
  rw [step, Function.update_self]
  exact (create_done h).2

/-- A call that is not done leaves the disk as it was, or for good the beginning of a new file. -/
theorem cut_run {disk : Disk ρ} {call : Call ρ} (h : call.result disk ≠ .done)
    (calls : List (Call ρ)) :
    step disk call = disk ∨
      ∃ n, call.io.shortWrite = some n ∧ call.io.removeOk = false ∧ disk call.path = none ∧
        Runs.run step (step disk call) calls call.path = some (call.encoded.take n) := by
  rcases create_of_ne_done h with hsame | ⟨n, hwrite, hremove, hfresh, hpart⟩
  · refine Or.inl ?_
    rw [step, hsame, Function.update_eq_self]
  · refine Or.inr ⟨n, hwrite, hremove, hfresh, kept_run calls ?_⟩
    rw [step, Function.update_self]
    exact hpart

end NewFiles
