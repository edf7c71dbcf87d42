/-
# `LinkDisk` — names, files and hard links

A name stands for a file, and several names can stand for the same one:

    openTrunc   a new file under the name, or the old one emptied
    write       more bytes at the end of an open file
    link        a second name for a file; fails if the name is taken
    unlink      one name less

A file that has one name can be written without anybody who reads under another name
seeing it (`Sole`).  To publish a file is to link its finished contents to a name that
is not taken; of several who do it one is first, and what it has published stays.
-/
import Mathlib.Logic.Function.Basic

namespace LinkDisk

/-- The names of a directory, and the files by number; files from `next` on are not used. -/
structure Disk (ρ : Type) where
  names : ρ → Option Nat
  contents : Nat → List UInt8
  next : Nat

namespace Disk

variable {ρ : Type}

def write (d : Disk ρ) (file : Nat) (bytes : List UInt8) : Disk ρ :=
  { d with contents := Function.update d.contents file (d.contents file ++ bytes) }

def read (d : Disk ρ) (name : ρ) : Option (List UInt8) := (d.names name).map d.contents

/-- No name stands for an unused file. -/
def Bounded (d : Disk ρ) : Prop := ∀ name file, d.names name = some file → file < d.next

/-- The only name of a file. -/
structure Sole (d : Disk ρ) (name : ρ) (file : Nat) : Prop where
  named : d.names name = some file
  only : ∀ other, d.names other = some file → other = name

section
variable {d : Disk ρ} {name other : ρ} {file : Nat} {bytes : List UInt8}

theorem read_eq_some : d.read name = some bytes ↔
    ∃ file, d.names name = some file ∧ d.contents file = bytes :=
  Option.map_eq_some_iff

/-- Writing a file that has one name shows under no other. -/
theorem frame_write (hsole : d.Sole name file) (hother : other ≠ name) (bytes : List UInt8) :
    ∀ second, d.names other = some second →
      (d.write file bytes).contents second = d.contents second := by
  intro second hsecond
  have hne : second ≠ file := by
    rintro rfl
    exact hother (hsole.only other hsecond)
  exact Function.update_of_ne hne ..

theorem read_write (hsole : d.Sole name file) (hother : other ≠ name) (bytes : List UInt8) :
    (d.write file bytes).read other = d.read other :=
  Option.map_congr fun second hsecond => frame_write hsole hother bytes second hsecond

theorem contents_write (d : Disk ρ) (file : Nat) (bytes : List UInt8) :
    (d.write file bytes).contents file = d.contents file ++ bytes :=
  Function.update_self ..

end

variable [DecidableEq ρ]

/-- The file that is opened for writing, and the disk with it. -/
def openTrunc (d : Disk ρ) (name : ρ) : Disk ρ × Nat :=
  match d.names name with
  | some file => ({ d with contents := Function.update d.contents file [] }, file)
  | none =>
      ({ names := Function.update d.names name (some d.next)
         contents := Function.update d.contents d.next []
         next := d.next + 1 }, d.next)

def link (d : Disk ρ) (old new : ρ) : Option (Disk ρ) :=
  match d.names old, d.names new with
  | some file, none => some { d with names := Function.update d.names new (some file) }
  | _, _ => none

def unlink (d : Disk ρ) (name : ρ) : Disk ρ :=
  { d with names := Function.update d.names name none }

variable {d : Disk ρ} {name other : ρ} {file : Nat}

/-! ## A new file -/

theorem openTrunc_new (h : d.names name = none) :
    d.openTrunc name
      = ({ names := Function.update d.names name (some d.next)
           contents := Function.update d.contents d.next []
           next := d.next + 1 }, d.next) := by
  unfold openTrunc
  rw [h]

theorem bounded_openTrunc (hbounded : d.Bounded) (h : d.names name = none) :
    (d.openTrunc name).1.Bounded := by
  rw [openTrunc_new h]
  intro other file hother
  dsimp only at hother ⊢
  by_cases hname : other = name
  · subst hname
    rw [Function.update_self] at hother
    cases hother
    exact Nat.lt_succ_self _
  · rw [Function.update_of_ne hname] at hother
    exact Nat.lt_succ_of_lt (hbounded other file hother)

theorem sole_openTrunc (hbounded : d.Bounded) (h : d.names name = none) :
    (d.openTrunc name).1.Sole name (d.openTrunc name).2 ∧
      (d.openTrunc name).1.contents (d.openTrunc name).2 = [] := by
  rw [openTrunc_new h]
  refine ⟨⟨Function.update_self .., ?_⟩, Function.update_self ..⟩
  intro other hother
  by_contra hname
  dsimp only at hother
  rw [Function.update_of_ne hname] at hother
  exact absurd (hbounded other _ hother) (Nat.lt_irrefl _)

/-- What another name stands for is what it was. -/
theorem frame_openTrunc (hbounded : d.Bounded) (h : d.names name = none) (hother : other ≠ name) :
    (d.openTrunc name).1.names other = d.names other ∧
      ∀ file, d.names other = some file →
        (d.openTrunc name).1.contents file = d.contents file := by
  rw [openTrunc_new h]
  refine ⟨Function.update_of_ne hother .., ?_⟩
  intro file hfile
  exact Function.update_of_ne (Nat.ne_of_lt (hbounded other file hfile)) ..

theorem read_openTrunc (hbounded : d.Bounded) (h : d.names name = none) (hother : other ≠ name) :
    (d.openTrunc name).1.read other = d.read other := by
  obtain ⟨hnames, hcontents⟩ := frame_openTrunc hbounded h hother
  rw [read, hnames]
  exact Option.map_congr hcontents

theorem Sole.openTrunc (hsole : d.Sole other file) (hbounded : d.Bounded)
    (h : d.names name = none) : (d.openTrunc name).1.Sole other file := by
  have hother : other ≠ name := by
    rintro rfl
    rw [hsole.named] at h
    cases h
  refine ⟨(frame_openTrunc hbounded h hother).1.trans hsole.named, ?_⟩
  intro third hthird
  by_cases hname : third = name
  · subst hname
    rw [openTrunc_new h] at hthird
    dsimp only at hthird
    rw [Function.update_self] at hthird
    cases hthird
    exact absurd (hbounded other _ hsole.named) (Nat.lt_irrefl _)
  · rw [(frame_openTrunc hbounded h hname).1] at hthird
    exact hsole.only third hthird

/-! ## Names -/

theorem names_unlink_self (d : Disk ρ) (name : ρ) : (d.unlink name).names name = none :=
  Function.update_self ..

theorem names_unlink (d : Disk ρ) (hother : other ≠ name) :
    (d.unlink name).names other = d.names other :=
  Function.update_of_ne hother ..

theorem read_unlink (d : Disk ρ) (hother : other ≠ name) :
    (d.unlink name).read other = d.read other :=
  congrArg (Option.map d.contents) (names_unlink d hother)

theorem bounded_unlink (h : d.Bounded) (name : ρ) : (d.unlink name).Bounded := by
  intro other file hother
  by_cases hname : other = name
  · subst hname
    rw [names_unlink_self] at hother
    cases hother
  · rw [names_unlink d hname] at hother
    exact h other file hother

theorem Sole.unlink (h : d.Sole other file) (hother : other ≠ name) :
    (d.unlink name).Sole other file := by
  refine ⟨(names_unlink d hother).trans h.named, ?_⟩
  intro third hthird
  by_cases hname : third = name
  · subst hname
    rw [names_unlink_self] at hthird
    cases hthird
  · rw [names_unlink d hname] at hthird
    exact h.only third hthird

/-- A link that succeeds. -/
theorem link_eq_some {next : Disk ρ} {old new : ρ} (h : d.link old new = some next) :
    ∃ file, d.names old = some file ∧ d.names new = none ∧
      next = { d with names := Function.update d.names new (some file) } := by
  unfold link at h
  split at h
  · rename_i file hold hnew
    exact ⟨file, hold, hnew, (Option.some.inj h).symm⟩
  · cases h

/-- A link that fails has found the name taken, or nothing to link. -/
theorem link_eq_none {old new : ρ} (h : d.link old new = none) {file : Nat}
    (hold : d.names old = some file) : d.names new ≠ none := by
  intro hnew
  unfold link at h
  rw [hold, hnew] at h
  cases h

end Disk

end LinkDisk
