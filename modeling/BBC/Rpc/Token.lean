/-
# `BBC.Rpc.Token` — one token for many processes

`src/rpc/token.cpp`.  `load_or_create_token` is called by every node that serves the RPC
port.  Several may start on one path at the same moment, and each of them does this:

    look           is there a file at the path?        then load it
    directories    make the parent
    opening        open a temporary name of its own
    writing        the token and a line feed
    permissions    for the owner only
    linking        link the file to the path           fails if there is one
    unlinking      remove the temporary name
    lookAgain      after a failed link: load the other one
    size, reading  `load_token`

Between two steps of a process the others take any number of steps, and every step can
fail.  `stepStage` is what one step does to the disk and to the process.  Whoever returns
a token returns the same one (`tokens_agree`), and who is not disturbed returns it
(`token_served`).
-/
import BBC.Crypto.Hex
import BBC.Lib.LinkDisk
import BBC.Lib.Runs

namespace BBC

open LinkDisk (Disk)
open LinkDisk.Disk

/-- `TokenError`. -/
inductive TokenError where
  | ioError
  | invalidToken
  deriving DecidableEq, Repr

/-- `TokenResult`. -/
abbrev TokenResult := Except TokenError Bytes

def tokenTextSize : Nat := 64
def maximumTokenFileSize : Nat := 256

/-- A hexadecimal digit, small or capital. -/
def hexCharacter (character : Byte) : Bool :=
  decide (48 ≤ character ∧ character ≤ 57) || decide (97 ≤ character ∧ character ≤ 102)
    || decide (65 ≤ character ∧ character ≤ 70)

/-- `valid_token`. -/
def validToken (value : Bytes) : Bool := value.length == tokenTextSize && value.all hexCharacter

/-- `load_token` after the file has been read: one line end is taken off. -/
def parseToken (file : Bytes) : TokenResult :=
  let token :=
    if file.getLast? = some 10 then
      let line := file.dropLast
      if line.getLast? = some 13 then line.dropLast else line
    else file
  if validToken token then .ok token else .error .invalidToken

/-- What a process draws. -/
structure TokenDraw where
  bytes : FixedBytes 32
  suffix : FixedBytes 8

namespace TokenDraw

/-- The token that the process makes. -/
def token (draw : TokenDraw) : Bytes := toUpperHex draw.bytes.toList

/-- What it writes. -/
def encoded (draw : TokenDraw) : Bytes := draw.token ++ [10]

/-- Its temporary name. -/
def temporary (draw : TokenDraw) (path : Bytes) : Bytes :=
  path ++ (text ".tmp-" ++ toUpperHex draw.suffix.toList)

end TokenDraw

/-- Where a process is. -/
inductive TokenStage where
  | look
  | directories
  | opening
  /-- The file is open, and so many bytes are in it. -/
  | writing (file count : Nat)
  | permissions
  | linking
  | unlinking (linked : Bool)
  | lookAgain
  | size
  | reading
  /-- The temporary file is given up. -/
  | discarding
  | done (result : TokenResult)
  deriving DecidableEq

/-- What the outside world does to one step. -/
structure TokenIo where
  ok : Bool
  /-- A write puts at most so many bytes into the file. -/
  count : Nat

/-- One step of `load_or_create_token`. -/
def stepStage (path : Bytes) (draw : TokenDraw) (disk : Disk Bytes) (io : TokenIo) :
    TokenStage → Disk Bytes × TokenStage
  | .look =>
      if ¬ io.ok then (disk, .done (.error .ioError))
      else if (disk.names path).isSome then (disk, .size)
      else (disk, .directories)
  | .directories => (disk, if io.ok then .opening else .done (.error .ioError))
  | .opening =>
      if ¬ io.ok then (disk, .done (.error .ioError))
      else
        let opened := disk.openTrunc (draw.temporary path)
        (opened.1, .writing opened.2 0)
  | .writing file count =>
      if ¬ io.ok then (disk, .discarding)
      else
        let part := (draw.encoded.drop count).take io.count
        (disk.write file part,
          if count + part.length = draw.encoded.length then .permissions
          else .writing file (count + part.length))
  | .permissions => (disk, if io.ok then .linking else .discarding)
  | .discarding =>
      (if io.ok then disk.unlink (draw.temporary path) else disk, .done (.error .ioError))
  | .linking =>
      match if io.ok then disk.link (draw.temporary path) path else none with
      | some next => (next, .unlinking true)
      | none => (disk, .unlinking false)
  | .unlinking linked =>
      (if io.ok then disk.unlink (draw.temporary path) else disk,
        if linked then .done (.ok draw.token) else .lookAgain)
  | .lookAgain =>
      (disk, if io.ok ∧ (disk.names path).isSome then .size else .done (.error .ioError))
  | .size =>
      match if io.ok then disk.read path else none with
      | none => (disk, .done (.error .ioError))
      | some file =>
          (disk,
            if file.length > maximumTokenFileSize then .done (.error .invalidToken) else .reading)
  | .reading =>
      match if io.ok then disk.read path else none with
      | none => (disk, .done (.error .ioError))
      | some file => (disk, .done (parseToken file))
  | .done result => (disk, .done result)

/-- The disk and all the processes. -/
structure TokenState (ι : Type) where
  disk : Disk Bytes
  stage : ι → TokenStage

variable {ι : Type}

/-- One process takes a step. -/
def TokenState.step [DecidableEq ι] (path : Bytes) (draw : ι → TokenDraw)
    (s : TokenState ι) (e : ι × TokenIo) :
    TokenState ι :=
  let next := stepStage path (draw e.1) s.disk e.2 (s.stage e.1)
  ⟨next.1, Function.update s.stage e.1 next.2⟩

/-! ## A written token reads -/

theorem hexCharacter_hexDigit (value : Byte) :
    ∀ character ∈ [hexDigit (value >>> 4), hexDigit (value &&& 0x0F)],
      hexCharacter character = true := by
  have hall := forall_byte (p := fun value =>
    [hexDigit (value >>> 4), hexDigit (value &&& 0x0F)].all hexCharacter) (by decide +kernel) value
  exact List.all_eq_true.mp hall

theorem validToken_toUpperHex {input : Bytes} (h : input.length = 32) :
    validToken (toUpperHex input) = true := by
  rw [validToken, Bool.and_eq_true, beq_iff_eq, length_toUpperHex, h]
  refine ⟨rfl, List.all_eq_true.mpr fun character hcharacter => ?_⟩
  obtain ⟨value, -, hvalue⟩ := List.mem_flatMap.mp hcharacter
  exact hexCharacter_hexDigit value character hvalue

theorem length_encoded (draw : TokenDraw) : draw.encoded.length = 65 := by
  have hbytes : draw.bytes.toList.length = 32 := draw.bytes.toList_length
  rw [TokenDraw.encoded, TokenDraw.token, List.length_append, length_toUpperHex, hbytes,
    List.length_singleton]

theorem parseToken_encoded (draw : TokenDraw) : parseToken draw.encoded = .ok draw.token := by
  have hvalid : validToken draw.token = true := validToken_toUpperHex draw.bytes.toList_length
  have hlast : draw.token.getLast? ≠ some 13 := by
    intro hlast
    have hmem := List.mem_of_getLast? hlast
    rw [validToken, Bool.and_eq_true] at hvalid
    exact absurd (List.all_eq_true.mp hvalid.2 13 hmem) (by decide)
  rw [parseToken, TokenDraw.encoded, List.getLast?_concat, if_pos rfl, List.dropLast_concat]
  dsimp only
  rw [if_neg hlast, if_pos hvalid]

/-! ## Names -/

section names
variable {path : Bytes} {draw draw' : TokenDraw}

theorem temporary_ne_path (draw : TokenDraw) (path : Bytes) : draw.temporary path ≠ path := by
  intro h
  have hlength := congrArg List.length h
  rw [TokenDraw.temporary, List.length_append, List.length_append] at hlength
  have hpositive : 0 < (text ".tmp-").length := by decide
  omega

theorem suffix_of_temporary (h : draw.temporary path = draw'.temporary path) :
    draw.suffix = draw'.suffix := by
  have htext := List.append_cancel_left (List.append_cancel_left h)
  exact List.Vector.toList_injective (toUpperHex_inj htext)

end names

/-! ## What a step does to the others -/

/-- One process has moved; `own` is its temporary name.  What is published stays, and so do
the files that others are writing. -/
structure Quiet (path own : Bytes) (d d' : Disk Bytes) : Prop where
  bounded : d'.Bounded
  published : ∀ file, d.read path = some file → d'.read path = some file
  unnamed : ∀ other, other ≠ own → other ≠ path → d.names other = none → d'.names other = none
  sole : ∀ other file, other ≠ own → other ≠ path → d.Sole other file →
    d'.Sole other file ∧ d'.contents file = d.contents file

section quiet
variable {path own : Bytes} {d : Disk Bytes}

theorem Quiet.refl (hbounded : d.Bounded) : Quiet path own d d :=
  ⟨hbounded, fun _ h => h, fun _ _ _ h => h, fun _ _ _ _ h => ⟨h, rfl⟩⟩

theorem quiet_openTrunc (hbounded : d.Bounded) (hpath : own ≠ path) (h : d.names own = none) :
    Quiet path own d (d.openTrunc own).1 where
  bounded := bounded_openTrunc hbounded h
  published := fun _ hread => (read_openTrunc hbounded h hpath.symm).trans hread
  unnamed := fun _ hother _ hnone => (frame_openTrunc hbounded h hother).1.trans hnone
  sole := fun _ file hother _ hsole =>
    ⟨hsole.openTrunc hbounded h, (frame_openTrunc hbounded h hother).2 file hsole.named⟩

theorem quiet_write (hbounded : d.Bounded) (hpath : own ≠ path) {file : Nat}
    (h : d.Sole own file) (bytes : Bytes) : Quiet path own d (d.write file bytes) where
  bounded := hbounded
  published := fun _ hread => (read_write h hpath.symm bytes).trans hread
  unnamed := fun _ _ _ hnone => hnone
  sole := fun _ second hother _ hsole =>
    ⟨⟨hsole.named, hsole.only⟩, frame_write h hother bytes second hsole.named⟩

theorem quiet_unlink (hbounded : d.Bounded) (hpath : own ≠ path) :
    Quiet path own d (d.unlink own) where
  bounded := bounded_unlink hbounded own
  published := fun _ hread => (read_unlink d hpath.symm).trans hread
  unnamed := fun _ hother _ hnone => (names_unlink d hother).trans hnone
  sole := fun _ _ hother _ hsole => ⟨hsole.unlink hother, rfl⟩

theorem quiet_link (hbounded : d.Bounded) {file : Nat} (h : d.Sole own file)
    (hnone : d.names path = none) :
    Quiet path own d { d with names := Function.update d.names path (some file) } where
  bounded := by
    intro other second hother
    dsimp only at hother ⊢
    by_cases hname : other = path
    · subst hname
      rw [Function.update_self] at hother
      cases hother
      exact hbounded own file h.named
    · rw [Function.update_of_ne hname] at hother
      exact hbounded other second hother
  published := by
    intro bytes hread
    obtain ⟨second, hnamed, -⟩ := read_eq_some.mp hread
    rw [hnone] at hnamed
    cases hnamed
  unnamed := fun other _ hother h => (Function.update_of_ne hother ..).trans h
  sole := by
    intro other second hown hother hsole
    refine ⟨⟨(Function.update_of_ne hother ..).trans hsole.named, ?_⟩, rfl⟩
    intro third hthird
    dsimp only at hthird
    by_cases hname : third = path
    · -- the file that is linked is not the other one
      subst hname
      rw [Function.update_self] at hthird
      cases hthird
      exact absurd (h.only other hsole.named) hown
    · rw [Function.update_of_ne hname] at hthird
      exact hsole.only third hthird

end quiet

/-! ## What each process knows -/

/-- A file that `load_token` takes. -/
def Readable (file : Bytes) : Prop :=
  file.length ≤ maximumTokenFileSize ∧ ∃ token, parseToken file = .ok token

theorem readable_encoded (draw : TokenDraw) : Readable draw.encoded := by
  refine ⟨?_, draw.token, parseToken_encoded draw⟩
  rw [length_encoded]
  decide

/-- What holds of the disk while a process is at a stage. -/
def TokenStage.Knows (path : Bytes) (draw : TokenDraw) (d : Disk Bytes) : TokenStage → Prop
  | .look | .directories | .opening => d.names (draw.temporary path) = none
  | .writing file count =>
      d.Sole (draw.temporary path) file ∧ d.contents file = draw.encoded.take count ∧
        count < draw.encoded.length
  | .permissions | .linking =>
      ∃ file, d.Sole (draw.temporary path) file ∧ d.contents file = draw.encoded
  | .unlinking true => d.read path = some draw.encoded
  | .unlinking false | .lookAgain | .discarding => True
  | .size | .reading => ∃ file, d.read path = some file
  | .done (.ok token) => ∃ file, d.read path = some file ∧ parseToken file = .ok token
  | .done (.error .invalidToken) => ∃ file, d.read path = some file ∧ ¬ Readable file
  | .done (.error .ioError) => True

/-- Others do not touch it. -/
theorem TokenStage.Knows.quiet {path own : Bytes} {draw : TokenDraw} {d d' : Disk Bytes}
    {stage : TokenStage} (h : stage.Knows path draw d) (hquiet : Quiet path own d d')
    (hown : draw.temporary path ≠ own) : stage.Knows path draw d' := by
  have hpath := temporary_ne_path draw path
  cases stage with
  | look => exact hquiet.unnamed _ hown hpath h
  | directories => exact hquiet.unnamed _ hown hpath h
  | opening => exact hquiet.unnamed _ hown hpath h
  | writing file count =>
      obtain ⟨hsole, hcontents, hcount⟩ := h
      obtain ⟨hkept, hsame⟩ := hquiet.sole _ file hown hpath hsole
      exact ⟨hkept, hsame.trans hcontents, hcount⟩
  | permissions =>
      obtain ⟨file, hsole, hcontents⟩ := h
      obtain ⟨hkept, hsame⟩ := hquiet.sole _ file hown hpath hsole
      exact ⟨file, hkept, hsame.trans hcontents⟩
  | linking =>
      obtain ⟨file, hsole, hcontents⟩ := h
      obtain ⟨hkept, hsame⟩ := hquiet.sole _ file hown hpath hsole
      exact ⟨file, hkept, hsame.trans hcontents⟩
  | unlinking linked =>
      cases linked with
      | true => exact hquiet.published _ h
      | false => exact h
  | lookAgain => exact h
  | size =>
      obtain ⟨file, hread⟩ := h
      exact ⟨file, hquiet.published _ hread⟩
  | reading =>
      obtain ⟨file, hread⟩ := h
      exact ⟨file, hquiet.published _ hread⟩
  | discarding => exact h
  | done result =>
      cases result with
      | ok token =>
          obtain ⟨file, hread, hparsed⟩ := h
          exact ⟨file, hquiet.published _ hread, hparsed⟩
      | error e =>
          cases e with
          | ioError => exact h
          | invalidToken =>
              obtain ⟨file, hread, hunreadable⟩ := h
              exact ⟨file, hquiet.published _ hread, hunreadable⟩

/-! ## One step -/

/-- What a step leaves: the others' files, what the process knows, and no other token at
the path than the one that was there or its own. -/
structure Stepped (path : Bytes) (draw : TokenDraw) (d : Disk Bytes)
    (next : Disk Bytes × TokenStage) : Prop where
  quiet : Quiet path (draw.temporary path) d next.1
  knows : next.2.Knows path draw next.1
  token : ∀ file, next.1.read path = some file → d.read path = some file ∨ file = draw.encoded

section steps
variable {path : Bytes} {draw : TokenDraw} {d : Disk Bytes}

/-- A step that leaves the disk alone. -/
theorem Stepped.still (hbounded : d.Bounded) {stage : TokenStage}
    (h : stage.Knows path draw d) : Stepped path draw d (d, stage) :=
  ⟨.refl hbounded, h, fun _ hread => Or.inl hread⟩

theorem stepped_unlink (hbounded : d.Bounded) (ok : Bool) {stage : TokenStage}
    (h : stage.Knows path draw d)
    (hkept : ∀ d', (∀ file, d.read path = some file → d'.read path = some file) →
      stage.Knows path draw d') :
    Stepped path draw d (if ok then d.unlink (draw.temporary path) else d, stage) := by
  have hpath := temporary_ne_path draw path
  cases ok with
  | false => exact .still hbounded h
  | true =>
      have hread := read_unlink d hpath.symm
      exact ⟨quiet_unlink hbounded hpath, hkept _ fun file hfile => hread.trans hfile,
        fun file hfile => Or.inl (hread.symm.trans hfile)⟩

theorem stepped_write (hbounded : d.Bounded) {file count : Nat}
    (h : (TokenStage.writing file count).Knows path draw d) (io : TokenIo) :
    Stepped path draw d (stepStage path draw d io (.writing file count)) := by
  have hpath := temporary_ne_path draw path
  obtain ⟨hsole, hcontents, hcount⟩ := h
  rw [stepStage]
  by_cases hok : ¬ io.ok = true
  · rw [if_pos hok]
    exact .still hbounded trivial
  rw [if_neg hok]
  dsimp only
  have hlength : ((draw.encoded.drop count).take io.count).length
      ≤ draw.encoded.length - count := by
    rw [List.length_take, List.length_drop]
    exact Nat.min_le_right _ _
  have hpart : (draw.encoded.drop count).take io.count
      = (draw.encoded.drop count).take ((draw.encoded.drop count).take io.count).length := by
    rw [List.length_take, List.take_eq_take_iff]
    omega
  have hwritten : (d.write file ((draw.encoded.drop count).take io.count)).contents file
      = draw.encoded.take (count + ((draw.encoded.drop count).take io.count).length) := by
    rw [contents_write, hcontents]
    conv_lhs => rw [hpart]
    exact List.take_add.symm
  refine ⟨quiet_write hbounded hpath hsole _, ?_,
    fun file hfile => Or.inl ((read_write hsole hpath.symm _).symm.trans hfile)⟩
  dsimp only
  split
  · rename_i hall
    rw [hall, List.take_length] at hwritten
    exact ⟨file, ⟨hsole.named, hsole.only⟩, hwritten⟩
  · exact ⟨⟨hsole.named, hsole.only⟩, hwritten, by omega⟩

theorem stepped_link (hbounded : d.Bounded)
    (h : TokenStage.linking.Knows path draw d) (io : TokenIo) :
    Stepped path draw d (stepStage path draw d io .linking) := by
  obtain ⟨file, hsole, hcontents⟩ := h
  rw [stepStage]
  cases hlink : (if io.ok then d.link (draw.temporary path) path else none) with
  | none => exact .still hbounded trivial
  | some next =>
      split at hlink
      swap
      · cases hlink
      obtain ⟨linked, hnamed, hnone, rfl⟩ := link_eq_some hlink
      rw [hsole.named] at hnamed
      cases hnamed
      have hread : ({ d with names := Function.update d.names path (some file) } : Disk Bytes).read
          path = some draw.encoded :=
        read_eq_some.mpr ⟨file, Function.update_self .., hcontents⟩
      refine ⟨quiet_link hbounded hsole hnone, hread, fun content hcontent => Or.inr ?_⟩
      rw [hread] at hcontent
      exact (Option.some.inj hcontent).symm

/-- One step, whatever the others have done before it. -/
theorem stepped (hbounded : d.Bounded) {stage : TokenStage} (h : stage.Knows path draw d)
    (io : TokenIo) :
    Stepped path draw d (stepStage path draw d io stage) := by
  have hpath := temporary_ne_path draw path
  have hfailed : Stepped path draw d (d, .done (.error .ioError)) := .still hbounded trivial
  cases stage with
  | look =>
      rw [stepStage]
      split
      · exact hfailed
      split
      · rename_i hsome
        obtain ⟨file, hfile⟩ := Option.isSome_iff_exists.mp hsome
        exact .still hbounded ⟨_, read_eq_some.mpr ⟨file, hfile, rfl⟩⟩
      · exact .still hbounded h
  | directories =>
      rw [stepStage]
      split
      · exact .still hbounded h
      · exact hfailed
  | opening =>
      rw [stepStage]
      split
      · exact hfailed
      · have hnone : d.names (draw.temporary path) = none := h
        obtain ⟨hsole, hempty⟩ := sole_openTrunc hbounded hnone
        have hpositive : 0 < draw.encoded.length := by
          rw [length_encoded]
          decide
        exact ⟨quiet_openTrunc hbounded hpath hnone, ⟨hsole, hempty, hpositive⟩,
          fun file hfile =>
            Or.inl ((read_openTrunc hbounded hnone hpath.symm).symm.trans hfile)⟩
  | writing file count => exact stepped_write hbounded h io
  | permissions =>
      rw [stepStage]
      split
      · exact .still hbounded h
      · exact .still hbounded trivial
  | linking => exact stepped_link hbounded h io
  | discarding => exact stepped_unlink hbounded io.ok trivial fun _ _ => trivial
  | unlinking linked =>
      cases linked with
      | true =>
          have hparsed := parseToken_encoded draw
          exact stepped_unlink hbounded io.ok ⟨_, h, hparsed⟩ fun _ hkept => ⟨_, hkept _ h, hparsed⟩
      | false => exact stepped_unlink hbounded io.ok trivial fun _ _ => trivial
  | lookAgain =>
      rw [stepStage]
      split
      · rename_i hboth
        obtain ⟨file, hfile⟩ := Option.isSome_iff_exists.mp hboth.2
        exact .still hbounded ⟨_, read_eq_some.mpr ⟨file, hfile, rfl⟩⟩
      · exact hfailed
  | size =>
      rw [stepStage]
      split
      · exact hfailed
      · rename_i file hfile
        split at hfile
        swap
        · cases hfile
        split
        · rename_i hlong
          exact .still hbounded ⟨file, hfile, fun hreadable => absurd hreadable.1 (by omega)⟩
        · exact .still hbounded ⟨file, hfile⟩
  | reading =>
      rw [stepStage]
      split
      · exact hfailed
      · rename_i file hfile
        split at hfile
        swap
        · cases hfile
        refine .still hbounded ?_
        cases hparsed : parseToken file with
        | ok token => exact ⟨file, hfile, hparsed⟩
        | error e =>
            cases e with
            | ioError => exact trivial
            | invalidToken =>
                refine ⟨file, hfile, ?_⟩
                rintro ⟨-, token, htoken⟩
                rw [hparsed] at htoken
                cases htoken
  | done result => exact .still hbounded h

end steps

/-! ## All the processes -/

section runs
variable {path : Bytes} {draw : ι → TokenDraw} {s : TokenState ι}

/-- What every process knows, at one time. -/
structure TokenState.Inv (path : Bytes) (draw : ι → TokenDraw) (s : TokenState ι) : Prop where
  bounded : s.disk.Bounded
  knows : ∀ i, (s.stage i).Knows path (draw i) s.disk

/-- How the system goes on from a state. -/
structure TokenState.Later (path : Bytes) (draw : ι → TokenDraw) (s s' : TokenState ι) : Prop where
  published : ∀ file, s.disk.read path = some file → s'.disk.read path = some file
  token : ∀ file, s'.disk.read path = some file →
    s.disk.read path = some file ∨ ∃ i, file = (draw i).encoded
  done : ∀ i result, s.stage i = .done result → s'.stage i = .done result

theorem TokenState.Later.refl (s : TokenState ι) : s.Later path draw s :=
  ⟨fun _ h => h, fun _ h => Or.inl h, fun _ _ h => h⟩

theorem TokenState.Later.trans {s₁ s₂ s₃ : TokenState ι} (h₁ : s₁.Later path draw s₂)
    (h₂ : s₂.Later path draw s₃) : s₁.Later path draw s₃ where
  published := fun file h => h₂.published file (h₁.published file h)
  token := by
    intro file h
    rcases h₂.token file h with hbefore | hdrawn
    · exact h₁.token file hbefore
    · exact Or.inr hdrawn
  done := fun i result h => h₂.done i result (h₁.done i result h)

/-- Nobody has begun, and nobody's temporary name is taken. -/
theorem TokenState.Inv.start (hbounded : s.disk.Bounded)
    (hfresh : ∀ i, s.disk.names ((draw i).temporary path) = none) (hlook : ∀ i, s.stage i = .look) :
    s.Inv path draw := by
  refine ⟨hbounded, fun i => ?_⟩
  rw [hlook i]
  exact hfresh i

variable [DecidableEq ι]

theorem stage_step_self (s : TokenState ι) (e : ι × TokenIo) :
    (s.step path draw e).stage e.1 = (stepStage path (draw e.1) s.disk e.2 (s.stage e.1)).2 :=
  Function.update_self ..

theorem stage_step_of_ne (s : TokenState ι) {e : ι × TokenIo} {j : ι} (hj : j ≠ e.1) :
    (s.step path draw e).stage j = s.stage j :=
  Function.update_of_ne hj ..

theorem TokenState.Inv.step (hsuffix : ∀ i j, (draw i).suffix = (draw j).suffix → i = j)
    (h : s.Inv path draw) (e : ι × TokenIo) :
    (s.step path draw e).Inv path draw ∧ s.Later path draw (s.step path draw e) := by
  obtain ⟨hquiet, hknows, htoken⟩ := stepped h.bounded (h.knows e.1) e.2
  refine ⟨⟨hquiet.bounded, ?_⟩, hquiet.published, ?_, ?_⟩
  · intro j
    by_cases hj : j = e.1
    · subst hj
      rw [stage_step_self]
      exact hknows
    · rw [stage_step_of_ne s hj]
      exact (h.knows j).quiet hquiet fun hname => hj (hsuffix _ _ (suffix_of_temporary hname))
  · intro file hfile
    rcases htoken file hfile with hbefore | hown
    · exact Or.inl hbefore
    · exact Or.inr ⟨e.1, hown⟩
  · intro j result hdone
    by_cases hj : j = e.1
    · subst hj
      rw [stage_step_self, hdone]
      exact rfl
    · rw [stage_step_of_ne s hj]
      exact hdone

theorem TokenState.Inv.run (hsuffix : ∀ i j, (draw i).suffix = (draw j).suffix → i = j)
    (h : s.Inv path draw) (events : List (ι × TokenIo)) :
    (Runs.run (TokenState.step path draw) s events).Inv path draw ∧
      s.Later path draw (Runs.run (TokenState.step path draw) s events) := by
  refine Runs.Along.invariant (I := fun s' => TokenState.Inv path draw s' ∧ s.Later path draw s')
    ?_ Runs.along_true ⟨h, .refl s⟩
  rintro s' e - ⟨hinv, hlater⟩
  obtain ⟨hstep, hnext⟩ := hinv.step hsuffix e
  exact ⟨hstep, hlater.trans hnext⟩

end runs

/-! ## One token -/

/-- However the steps of the processes are mixed, and whatever fails in them: two processes
that return a token return the same one, it is the token of the file at the path, and that
file is never replaced.  If there was none at the start it is the file of one of them, and
nobody finds an invalid one. -/
theorem tokens_agree [DecidableEq ι] (path : Bytes) (draw : ι → TokenDraw) (s : TokenState ι)
    (hsuffix : ∀ i j, (draw i).suffix = (draw j).suffix → i = j) (hbounded : s.disk.Bounded)
    (hfresh : ∀ i, s.disk.names ((draw i).temporary path) = none) (hlook : ∀ i, s.stage i = .look)
    (early late : List (ι × TokenIo)) :
    let before := Runs.run (TokenState.step path draw) s early
    let after := Runs.run (TokenState.step path draw) before late
    (∀ i j token token', before.stage i = .done (.ok token) → after.stage j = .done (.ok token') →
      token = token') ∧
    (∀ i token, after.stage i = .done (.ok token) →
      ∃ file, after.disk.read path = some file ∧ parseToken file = .ok token) ∧
    (∀ file, before.disk.read path = some file → after.disk.read path = some file) ∧
    (∀ i result, before.stage i = .done result → after.stage i = .done result) ∧
    (s.disk.read path = none →
      (∀ file, after.disk.read path = some file → ∃ i, file = (draw i).encoded) ∧
      (∀ i, after.stage i ≠ .done (.error .invalidToken)) ∧
      ∀ i token, after.stage i = .done (.ok token) → ∃ j, token = (draw j).token) := by
  intro before after
  obtain ⟨hbefore, hfirst⟩ := (TokenState.Inv.start hbounded hfresh hlook).run hsuffix early
  obtain ⟨hafter, hlater⟩ := hbefore.run hsuffix late
  have hloaded : ∀ i token, after.stage i = .done (.ok token) →
      ∃ file, after.disk.read path = some file ∧ parseToken file = .ok token := by
    intro i token hdone
    have hknows := hafter.knows i
    rw [hdone] at hknows
    exact hknows
  refine ⟨?_, hloaded, hlater.published, hlater.done, ?_⟩
  · intro i j token token' hi hj
    obtain ⟨file, hread, hparsed⟩ := hloaded i token (hlater.done i _ hi)
    obtain ⟨file', hread', hparsed'⟩ := hloaded j token' hj
    rw [hread] at hread'
    cases hread'
    rw [hparsed] at hparsed'
    cases hparsed'
    rfl
  · intro hnone
    have hdrawn : ∀ file, after.disk.read path = some file → ∃ i, file = (draw i).encoded := by
      intro file hfile
      rcases (hfirst.trans hlater).token file hfile with hstart | hdrawn
      · rw [hnone] at hstart
        cases hstart
      · exact hdrawn
    refine ⟨hdrawn, ?_, ?_⟩
    · intro i hdone
      have hknows := hafter.knows i
      rw [hdone] at hknows
      obtain ⟨file, hfile, hunreadable⟩ := hknows
      obtain ⟨j, rfl⟩ := hdrawn file hfile
      exact hunreadable (readable_encoded (draw j))
    · intro i token hdone
      obtain ⟨file, hfile, hparsed⟩ := hloaded i token hdone
      obtain ⟨j, rfl⟩ := hdrawn file hfile
      rw [parseToken_encoded] at hparsed
      exact ⟨j, (Except.ok.inj hparsed).symm⟩

/-- Two nodes with their draws. -/
def raceDraw (second : Bool) : TokenDraw :=
  ⟨.replicate 32 (if second then 0xB0 else 0xA0), .replicate 8 (if second then 2 else 1)⟩

def raceStart : TokenState Bool := ⟨⟨fun _ => none, fun _ => [], 0⟩, fun _ => .look⟩

/-- Both have written their files when the second one links first. -/
def raceSteps : List (Bool × TokenIo) :=
  (List.replicate 5 [(false, ⟨true, 65⟩), (true, ⟨true, 65⟩)]).flatten
    ++ List.replicate 2 (true, ⟨true, 65⟩) ++ List.replicate 5 (false, ⟨true, 65⟩)

theorem suffix_raceDraw (i j : Bool) (h : (raceDraw i).suffix = (raceDraw j).suffix) : i = j := by
  cases i <;> cases j
  · rfl
  · exact absurd h (by decide)
  · exact absurd h (by decide)
  · rfl

theorem bounded_raceStart : raceStart.disk.Bounded := by
  intro name file h
  cases h

theorem tokens_agree_race :
    (Runs.run (TokenState.step (text "rpc-token") raceDraw) raceStart raceSteps).stage false
        = .done (.ok (raceDraw true).token) ∧
      ∀ late token,
        (Runs.run (TokenState.step (text "rpc-token") raceDraw)
          (Runs.run (TokenState.step (text "rpc-token") raceDraw) raceStart raceSteps)
            late).stage true
          = .done (.ok token) → token = (raceDraw true).token := by
  have hdone : (Runs.run (TokenState.step (text "rpc-token") raceDraw) raceStart raceSteps).stage
      false = .done (.ok (raceDraw true).token) := by
    decide +kernel
  refine ⟨hdone, fun late token htoken => ?_⟩
  exact ((tokens_agree (text "rpc-token") raceDraw raceStart suffix_raceDraw bounded_raceStart
    (fun _ => rfl) (fun _ => rfl) raceSteps late).1 false true _ token hdone htoken).symm

/-! ## Who is not disturbed -/

/-- The steps that a process needs at most. -/
def TokenStage.rank : TokenStage → Nat
  | .look => 74
  | .directories => 73
  | .opening => 72
  | .writing _ count => 6 + (65 - count)
  | .permissions => 6
  | .linking => 5
  | .unlinking _ => 4
  | .lookAgain => 3
  | .size => 2
  | .reading => 1
  | .discarding => 1
  | .done _ => 0

/-- Nothing has failed, except that another process was the first to link. -/
def TokenStage.Going (path : Bytes) (d : Disk Bytes) : TokenStage → Prop
  | .unlinking false | .lookAgain => ∃ file, d.read path = some file
  | .discarding | .done (.error _) => False
  | .look | .directories | .opening | .writing .. | .permissions | .linking | .unlinking true
  | .size | .reading | .done (.ok _) => True

theorem TokenStage.Going.published {path : Bytes} {d d' : Disk Bytes} {stage : TokenStage}
    (h : stage.Going path d)
    (hkept : ∀ file, d.read path = some file → d'.read path = some file) :
    stage.Going path d' := by
  cases stage with
  | unlinking linked =>
      cases linked with
      | true => exact h
      | false =>
          obtain ⟨file, hread⟩ := h
          exact ⟨file, hkept file hread⟩
  | lookAgain =>
      obtain ⟨file, hread⟩ := h
      exact ⟨file, hkept file hread⟩
  | done result =>
      cases result with
      | ok token => exact h
      | error e => exact h
  | _ => exact h

theorem isSome_names {path file : Bytes} {d : Disk Bytes} (h : d.read path = some file) :
    (d.names path).isSome = true := by
  obtain ⟨number, hnumber, -⟩ := read_eq_some.mp h
  rw [hnumber]
  rfl

/-- A step that succeeds goes on and comes nearer. -/
theorem going_step {path : Bytes} {draw : TokenDraw} {d : Disk Bytes} {stage : TokenStage}
    (hknows : stage.Knows path draw d) (hgoing : stage.Going path d)
    (hreadable : ∀ file, d.read path = some file → Readable file) {io : TokenIo}
    (hok : io.ok = true) (hcount : 0 < io.count) :
    (stepStage path draw d io stage).2.Going path (stepStage path draw d io stage).1 ∧
      (stepStage path draw d io stage).2.rank ≤ stage.rank - 1 := by
  have hpath := temporary_ne_path draw path
  cases stage with
  | look =>
      rw [stepStage, if_neg (not_not.mpr hok)]
      split
      · exact ⟨trivial, by simp [TokenStage.rank]⟩
      · exact ⟨trivial, by simp [TokenStage.rank]⟩
  | directories =>
      rw [stepStage, if_pos hok]
      exact ⟨trivial, by simp [TokenStage.rank]⟩
  | opening =>
      rw [stepStage, if_neg (not_not.mpr hok)]
      exact ⟨trivial, by simp only [TokenStage.rank]; omega⟩
  | writing file count =>
      obtain ⟨-, -, hlt⟩ := hknows
      rw [length_encoded] at hlt
      rw [stepStage, if_neg (not_not.mpr hok)]
      have hpart : 0 < ((draw.encoded.drop count).take io.count).length := by
        rw [List.length_take, List.length_drop, length_encoded]
        omega
      dsimp only
      split
      · exact ⟨trivial, by simp only [TokenStage.rank]; omega⟩
      · exact ⟨trivial, by simp only [TokenStage.rank]; omega⟩
  | permissions =>
      rw [stepStage, if_pos hok]
      exact ⟨trivial, by simp [TokenStage.rank]⟩
  | linking =>
      obtain ⟨file, hsole, -⟩ := hknows
      rw [stepStage, if_pos hok]
      split
      · exact ⟨trivial, by simp [TokenStage.rank]⟩
      · rename_i hlink
        -- the name was taken: another process has published
        obtain ⟨number, hnumber⟩ := Option.ne_none_iff_exists'.mp (link_eq_none hlink hsole.named)
        exact ⟨⟨_, read_eq_some.mpr ⟨number, hnumber, rfl⟩⟩, by simp [TokenStage.rank]⟩
  | unlinking linked =>
      rw [stepStage, if_pos hok]
      cases linked with
      | true => exact ⟨trivial, by simp [TokenStage.rank]⟩
      | false =>
          obtain ⟨file, hread⟩ := hgoing
          exact ⟨⟨file, (read_unlink d hpath.symm).trans hread⟩, by simp [TokenStage.rank]⟩
  | lookAgain =>
      obtain ⟨file, hread⟩ := hgoing
      rw [stepStage, if_pos ⟨hok, isSome_names hread⟩]
      exact ⟨trivial, by simp [TokenStage.rank]⟩
  | size =>
      obtain ⟨file, hread⟩ := hknows
      obtain ⟨hlength, -⟩ := hreadable file hread
      rw [stepStage, if_pos hok, hread]
      dsimp only
      rw [if_neg (by omega)]
      exact ⟨trivial, by simp [TokenStage.rank]⟩
  | reading =>
      obtain ⟨file, hread⟩ := hknows
      obtain ⟨-, token, htoken⟩ := hreadable file hread
      rw [stepStage, if_pos hok, hread]
      dsimp only
      rw [htoken]
      exact ⟨trivial, by simp [TokenStage.rank]⟩
  | discarding => exact hgoing.elim
  | done result => exact ⟨hgoing, Nat.zero_le _⟩

section served
variable [DecidableEq ι] {path : Bytes} {draw : ι → TokenDraw}

/-- The steps of one process. -/
def ownSteps (i : ι) (events : List (ι × TokenIo)) : Nat := events.countP fun e => e.1 = i

theorem going_run (hsuffix : ∀ i j, (draw i).suffix = (draw j).suffix → i = j) (i : ι)
    {events : List (ι × TokenIo)} :
    ∀ {s : TokenState ι}, s.Inv path draw → (s.stage i).Going path s.disk →
      (∀ file, s.disk.read path = some file → Readable file) →
      (∀ e ∈ events, e.1 = i → e.2.ok = true ∧ 0 < e.2.count) →
      let after := Runs.run (TokenState.step path draw) s events
      (after.stage i).Going path after.disk ∧
        (after.stage i).rank ≤ (s.stage i).rank - ownSteps i events := by
  induction events with
  | nil =>
      intro s _ hgoing _ _
      exact ⟨hgoing, Nat.le_refl _⟩
  | cons e events ih =>
      intro s hinv hgoing hreadable hown after
      obtain ⟨hstep, hlater⟩ := hinv.step hsuffix e
      have hstill : ∀ file, (s.step path draw e).disk.read path = some file → Readable file := by
        intro file hfile
        rcases hlater.token file hfile with hbefore | ⟨j, rfl⟩
        · exact hreadable file hbefore
        · exact readable_encoded (draw j)
      have hrest : ∀ e' ∈ events, e'.1 = i → e'.2.ok = true ∧ 0 < e'.2.count :=
        fun e' he' => hown e' (List.mem_cons_of_mem _ he')
      by_cases hi : e.1 = i
      · subst hi
        obtain ⟨hok, hcount⟩ := hown e List.mem_cons_self rfl
        obtain ⟨hnext, hrank⟩ := going_step (hinv.knows e.1) hgoing hreadable hok hcount
        rw [← stage_step_self s e] at hnext hrank
        obtain ⟨hfinal, hleft⟩ := ih hstep hnext hstill hrest
        have hsteps : ownSteps e.1 (e :: events) = ownSteps e.1 events + 1 :=
          List.countP_cons_of_pos (decide_eq_true rfl)
        exact ⟨hfinal, hleft.trans (by rw [hsteps]; omega)⟩
      · have hstage : (s.step path draw e).stage i = s.stage i := stage_step_of_ne s (Ne.symm hi)
        have hnext : ((s.step path draw e).stage i).Going path (s.step path draw e).disk := by
          rw [hstage]
          exact hgoing.published hlater.published
        obtain ⟨hfinal, hleft⟩ := ih hstep hnext hstill hrest
        have hsteps : ownSteps i (e :: events) = ownSteps i events :=
          List.countP_cons_of_neg (by rw [decide_eq_true_iff]; exact hi)
        rw [hstage] at hleft
        exact ⟨hfinal, by rw [hsteps]; exact hleft⟩

end served

/-- A process whose own steps succeed returns a token after at most 74 of them, whatever
the others do between them and wherever they stop. -/
theorem token_served [DecidableEq ι] (path : Bytes) (draw : ι → TokenDraw) (s : TokenState ι)
    (hsuffix : ∀ i j, (draw i).suffix = (draw j).suffix → i = j) (hbounded : s.disk.Bounded)
    (hfresh : ∀ i, s.disk.names ((draw i).temporary path) = none) (hlook : ∀ i, s.stage i = .look)
    (hreadable : ∀ file, s.disk.read path = some file → Readable file)
    (i : ι) (events : List (ι × TokenIo))
    (hown : ∀ e ∈ events, e.1 = i → e.2.ok = true ∧ 0 < e.2.count)
    (hsteps : 74 ≤ ownSteps i events) :
    ∃ token, (Runs.run (TokenState.step path draw) s events).stage i = .done (.ok token) := by
  have hstart : (s.stage i).Going path s.disk := by
    rw [hlook i]
    exact trivial
  obtain ⟨hgoing, hrank⟩ :=
    going_run hsuffix i (.start hbounded hfresh hlook) hstart hreadable hown
  have hzero : ((Runs.run (TokenState.step path draw) s events).stage i).rank = 0 := by
    have hspent : (s.stage i).rank - ownSteps i events = 0 := by
      rw [hlook i]
      exact Nat.sub_eq_zero_of_le hsteps
    exact Nat.le_zero.mp (hrank.trans hspent.le)
  cases hstage : (Runs.run (TokenState.step path draw) s events).stage i with
  | done result =>
      cases result with
      | ok token => exact ⟨token, rfl⟩
      | error e =>
          rw [hstage] at hgoing
          exact hgoing.elim
  | writing file count =>
      rw [hstage] at hzero
      simp only [TokenStage.rank] at hzero
      omega
  | _ =>
      rw [hstage] at hzero
      cases hzero

/-- The other node fails in every step. -/
theorem token_served_race :
    ∃ token, (Runs.run (TokenState.step (text "rpc-token") raceDraw) raceStart
      (List.replicate 74 [(false, ⟨true, 1⟩), (true, ⟨false, 0⟩)]).flatten).stage false
      = .done (.ok token) :=
  token_served (text "rpc-token") raceDraw raceStart suffix_raceDraw bounded_raceStart
    (fun _ => rfl) (fun _ => rfl) (fun _ hread => absurd hread (by rintro ⟨⟩)) false _
    (by decide +kernel) (by decide +kernel)

end BBC
