import Respell.Proofs.Command.Sources

/-!
# Isolation of files

What the files of one run have to do with each other. Every file has its turn, on the disk that the files
before it leave. A file whose turn fails leaves the disk as it is, so the files after it cannot tell that it
was there: the run without it does the same to them. The status of the run is that of the worst turn.
-/

namespace Respell.Command

open Disk

/-! ## Turns -/

/-- The output of the file that a path names, if it can be read and compiled. -/
def compiled? (d : Disk) (p : Path) : Option String := do
  let text ← (d.read p).toOption
  (Engine.compile p.text text).toOption

theorem compiled?_of_ok {d : Disk} {p : Path} {text output : String} (hread : d.read p = .ok text)
    (hcompile : Engine.compile p.text text = .ok output) : compiled? d p = some output := by
  rw [compiled?, hread]
  show (Engine.compile p.text text).toOption = some output
  rw [hcompile]
  rfl

theorem compiled?_of_read_error {d : Disk} {p : Path} {e : StorageError} (hread : d.read p = .error e) :
    compiled? d p = none := by
  rw [compiled?, hread]
  rfl

theorem compiled?_of_compile_error {d : Disk} {p : Path} {text : String} {diagnostic : Diagnostic}
    (hread : d.read p = .ok text) (hcompile : Engine.compile p.text text = .error diagnostic) :
    compiled? d p = none := by
  rw [compiled?, hread]
  show (Engine.compile p.text text).toOption = none
  rw [hcompile]
  rfl

namespace Visit

/-- The file cannot be read. -/
def Unreadable (v : Visit) : Prop := ∃ e, v.disk.read v.file = .error e

/-- The file can be read, but it does not compile. -/
def Refused (v : Visit) : Prop :=
  ∃ text diagnostic, v.disk.read v.file = .ok text ∧ Engine.compile v.file.text text = .error diagnostic

/-- The file compiles, but its output cannot be written to its target. -/
def Unwritable (a : Arguments) (o : Options) (v : Visit) : Prop :=
  a.toStdout = false ∧ ∃ output target e, compiled? v.disk v.file = some output ∧
    fileTarget? o a.outDir v.file = some target ∧ v.disk.write target output.toUTF8 = .error e

/-- The turn of the file fails in one way or another. -/
def Fails (a : Arguments) (o : Options) (v : Visit) : Prop :=
  v.Unreadable ∨ v.Refused ∨ v.Unwritable a o

/-- What becomes of the file. -/
def result (a : Arguments) (o : Options) (v : Visit) : FileResult :=
  ((compileFile a o v.file : StateM Disk FileResult) v.disk).1

/-- The disk after the turn of the file. -/
def after (a : Arguments) (o : Options) (v : Visit) : Disk :=
  ((compileFile a o v.file : StateM Disk FileResult) v.disk).2

end Visit

/-- What can happen in the turn of a file: its result, and the disk afterwards. -/
inductive Handled (a : Arguments) (o : Options) (p : Path) (d : Disk) : FileResult → Disk → Prop where
  | unreadable {e : StorageError} (hread : d.read p = .error e) : Handled a o p d (.unreadable ⟨p, e⟩) d
  | refused {text : String} {diagnostic : Diagnostic} (hread : d.read p = .ok text)
      (hcompile : Engine.compile p.text text = .error diagnostic) : Handled a o p d (.refused diagnostic) d
  | printed {output : String} (hout : compiled? d p = some output) (hprint : a.toStdout = true) :
      Handled a o p d (.printed output) d
  | unwritable {output : String} {target : Path} {e : StorageError} (hout : compiled? d p = some output)
      (hprint : a.toStdout = false) (htarget : fileTarget? o a.outDir p = some target)
      (hwrite : d.write target output.toUTF8 = .error e) : Handled a o p d (.unwritable ⟨target, e⟩) d
  | written {output : String} {target : Path} {written : Disk} (hout : compiled? d p = some output)
      (hprint : a.toStdout = false) (htarget : fileTarget? o a.outDir p = some target)
      (hwrite : d.write target output.toUTF8 = .ok written) : Handled a o p d (.written target) written

/-- With an extension that holds no slash, every output can be named. -/
theorem exists_fileTarget {o : Options} (hext : '/' ∉ o.outExtension) (outDir : Option Path) (p : Path) :
    ∃ target, fileTarget? o outDir p = some target := by
  have hslash : o.outExtension.contains '/' = false := by simpa using hext
  obtain ⟨beside, hbeside⟩ : ∃ beside, o.outputPath? p = some beside := by
    unfold Options.outputPath? Path.withExtension?
    rw [hslash]
    cases p.extension? with
    | none => exact ⟨_, rfl⟩
    | some old => exact ⟨_, rfl⟩
  unfold fileTarget?
  rw [hbeside, Option.bind_eq_bind, Option.bind_some]
  split
  · exact ⟨_, rfl⟩
  · exact ⟨_, rfl⟩

section

variable {a : Arguments} {o : Options} (hext : '/' ∉ o.outExtension)
include hext

theorem compileFile_handled (p : Path) (d : Disk) :
    Handled a o p d ((compileFile a o p : StateM Disk FileResult) d).1
      ((compileFile a o p : StateM Disk FileResult) d).2 := by
  unfold compileFile
  simp only [bind, StateT.bind, Storage.readText]
  cases hread : d.read p with
  | error e => exact .unreadable hread
  | ok text =>
      dsimp only
      cases hcompile : Engine.compile p.text text with
      | error diagnostic => exact .refused hread hcompile
      | ok output =>
          have hout := compiled?_of_ok hread hcompile
          dsimp only
          cases hprint : a.toStdout with
          | true => exact .printed hout hprint
          | false =>
              obtain ⟨target, htarget⟩ := exists_fileTarget hext a.outDir p
              simp only [Bool.false_eq_true, ↓reduceIte, htarget, StateT.bind, Storage.writeText]
              cases hwrite : d.write target output.toUTF8 with
              | error e => exact .unwritable hout hprint htarget hwrite
              | ok written => exact .written hout hprint htarget hwrite

theorem Visit.handled (v : Visit) : Handled a o v.file v.disk (v.result a o) (v.after a o) :=
  compileFile_handled hext v.file v.disk

end

namespace Handled

variable {a : Arguments} {o : Options} {p : Path} {d e : Disk} {r : FileResult}

theorem ne_unnamable (h : Handled a o p d r e) : r ≠ .unnamable := by
  cases h <;> exact nofun

/-- With the output printed, nothing is written. -/
theorem eq_of_toStdout (h : Handled a o p d r e) (hprint : a.toStdout = true) : e = d := by
  cases h with
  | unreadable _ => rfl
  | refused _ _ => rfl
  | printed _ _ => rfl
  | unwritable _ hfalse _ _ => exact absurd hprint (by simp [hfalse])
  | written _ hfalse _ _ => exact absurd hprint (by simp [hfalse])

/-- What is printed for a file is its output, and nothing if it has none. -/
theorem output_of_toStdout (h : Handled a o p d r e) (hprint : a.toStdout = true) :
    r.output = (compiled? d p).getD "" := by
  cases h with
  | unreadable hread =>
      rw [compiled?_of_read_error hread]
      rfl
  | refused hread hcompile =>
      rw [compiled?_of_compile_error hread hcompile]
      rfl
  | printed hout _ =>
      rw [hout]
      rfl
  | unwritable _ hfalse _ _ => exact absurd hprint (by simp [hfalse])
  | written _ hfalse _ _ => exact absurd hprint (by simp [hfalse])

theorem output_of_not_toStdout (h : Handled a o p d r e) (hprint : a.toStdout = false) : r.output = "" := by
  cases h with
  | printed _ htrue => exact absurd htrue (by simp [hprint])
  | _ => rfl

/-- Only the place where the target of a compiled file leads can change. -/
theorem bytes?_eq (h : Handled a o p d r e) {l : Location}
    (hl : ∀ target, (compiled? d p).isSome → fileTarget? o a.outDir p = some target → l ≠ d.locate target) :
    e.bytes? l = d.bytes? l := by
  cases h with
  | written hout _ htarget hwrite =>
      obtain ⟨rfl, _, _⟩ := write_locate hwrite
      apply bytes?_put_of_ne
      apply hl _ _ htarget
      rw [hout]
      rfl
  | _ => rfl

theorem tree_eq (h : Handled a o p d r e) : e.current = d.current ∧ e.dirs = d.dirs := by
  cases h with
  | written _ _ _ hwrite =>
      obtain ⟨rfl, _, _⟩ := write_locate hwrite
      exact ⟨rfl, rfl⟩
  | _ => exact ⟨rfl, rfl⟩

end Handled

namespace Visit

variable {a : Arguments} {o : Options} {v : Visit}

theorem compiled?_of_refused (h : v.Refused) : compiled? v.disk v.file = none := by
  obtain ⟨text, diagnostic, hread, hcompile⟩ := h
  exact compiled?_of_compile_error hread hcompile

theorem compiled?_of_unreadable (h : v.Unreadable) : compiled? v.disk v.file = none := by
  obtain ⟨e, hread⟩ := h
  exact compiled?_of_read_error hread

theorem not_refused_of_unreadable (h : v.Unreadable) : ¬ v.Refused := by
  obtain ⟨e, herror⟩ := h
  rintro ⟨text, diagnostic, hread, _⟩
  rw [hread] at herror
  cases herror

theorem not_refused_of_compiled {output : String} (hout : compiled? v.disk v.file = some output) :
    ¬ v.Refused := by
  intro hrefused
  rw [compiled?_of_refused hrefused] at hout
  cases hout

theorem not_fails_of_compiled {output : String} (hout : compiled? v.disk v.file = some output)
    (hwrite : ¬ v.Unwritable a o) : ¬ v.Fails a o := by
  rintro (hread | hrefused | hunwritable)
  · rw [compiled?_of_unreadable hread] at hout
    cases hout
  · exact not_refused_of_compiled hout hrefused
  · exact hwrite hunwritable

theorem not_unwritable_of_ok {output : String} {target : Path} {e : Disk}
    (hout : compiled? v.disk v.file = some output) (htarget : fileTarget? o a.outDir v.file = some target)
    (hwrite : v.disk.write target output.toUTF8 = .ok e) : ¬ v.Unwritable a o := by
  rintro ⟨_, output', target', e', hout', htarget', herror⟩
  rw [hout] at hout'
  cases hout'
  rw [htarget] at htarget'
  cases htarget'
  rw [hwrite] at herror
  cases herror

/-- The turn of a file by how it ends. One that fails leaves the disk as it is. -/
theorem turn_cases (hext : '/' ∉ o.outExtension) (v : Visit) :
    (v.Refused ∧ (v.result a o).status = statusRefused ∧ v.after a o = v.disk) ∨
    ((v.Unreadable ∨ v.Unwritable a o) ∧ ¬ v.Refused ∧ (v.result a o).status = statusFailed ∧
      v.after a o = v.disk) ∨
    (¬ v.Fails a o ∧ (v.result a o).status = statusOk) := by
  have hv : Handled a o v.file v.disk (v.result a o) (v.after a o) := v.handled hext
  generalize v.result a o = r at hv ⊢
  generalize v.after a o = e at hv ⊢
  cases hv with
  | unreadable hread =>
      have hun : v.Unreadable := ⟨_, hread⟩
      exact .inr (.inl ⟨.inl hun, not_refused_of_unreadable hun, rfl, rfl⟩)
  | refused hread hcompile => exact .inl ⟨⟨_, _, hread, hcompile⟩, rfl, rfl⟩
  | printed hout hprint =>
      have hwrite : ¬ v.Unwritable a o := fun h => absurd hprint (by simp [h.1])
      exact .inr (.inr ⟨not_fails_of_compiled hout hwrite, rfl⟩)
  | unwritable hout hprint htarget hwrite =>
      exact .inr (.inl ⟨.inr ⟨hprint, _, _, _, hout, htarget, hwrite⟩, not_refused_of_compiled hout, rfl, rfl⟩)
  | written hout _ htarget hwrite =>
      exact .inr (.inr ⟨not_fails_of_compiled hout (not_unwritable_of_ok hout htarget hwrite), rfl⟩)

theorem after_of_fails (hext : '/' ∉ o.outExtension) (h : v.Fails a o) : v.after a o = v.disk := by
  rcases v.turn_cases (a := a) hext with ⟨_, _, hdisk⟩ | ⟨_, _, _, hdisk⟩ | ⟨hnot, _⟩
  · exact hdisk
  · exact hdisk
  · exact absurd h hnot

/-- The output of a compiled file is put where its target leads, unless it is printed or cannot be written. -/
theorem after_of_compiled (hext : '/' ∉ o.outExtension) (hprint : a.toStdout = false) {output : String}
    (hout : compiled? v.disk v.file = some output) (hwrite : ¬ v.Unwritable a o) :
    ∃ target, fileTarget? o a.outDir v.file = some target ∧
      v.after a o = v.disk.put (v.disk.locate target) output.toUTF8 := by
  have hv : Handled a o v.file v.disk (v.result a o) (v.after a o) := v.handled hext
  generalize v.result a o = r at hv
  generalize v.after a o = e at hv ⊢
  cases hv with
  | unreadable hread => exact absurd hout (by simp [compiled?_of_read_error hread])
  | refused hread hcompile => exact absurd hout (by simp [compiled?_of_compile_error hread hcompile])
  | printed _ htrue => exact absurd htrue (by simp [hprint])
  | unwritable hout' _ htarget herror => exact absurd ⟨hprint, _, _, _, hout', htarget, herror⟩ hwrite
  | written hout' _ htarget hok =>
      rw [hout] at hout'
      cases hout'
      exact ⟨_, htarget, (write_locate hok).1⟩

end Visit

/-! ## One turn after the other -/

section

variable {a : Arguments} {o : Options} (hext : '/' ∉ o.outExtension)
include hext

theorem visits_cons (p : Path) (ps : List Path) (d : Disk) :
    visits a o d (p :: ps) = ⟨p, d, fileOutput? a o p d⟩ ::
      visits a o ((compileFile a o p : StateM Disk FileResult) d).2 ps := by
  have hname := (compileFile_handled (a := a) hext p d).ne_unnamable
  rw [visits, if_neg hname]

theorem compileFiles_cons (p : Path) (ps : List Path) (d : Disk) :
    (compileFiles a o (p :: ps) : StateM Disk (List FileResult)) d =
      (((compileFile a o p : StateM Disk FileResult) d).1 ::
        ((compileFiles a o ps : StateM Disk (List FileResult))
          ((compileFile a o p : StateM Disk FileResult) d).2).1,
       ((compileFiles a o ps : StateM Disk (List FileResult))
          ((compileFile a o p : StateM Disk FileResult) d).2).2) := by
  have hname := (compileFile_handled (a := a) hext p d).ne_unnamable
  rw [compileFiles]
  simp only [bind, StateT.bind]
  generalize (compileFile a o p : StateM Disk FileResult) d = turn at hname ⊢
  obtain ⟨r, e⟩ := turn
  dsimp only at hname ⊢
  rw [if_neg hname]
  rfl

theorem visits_map_file (ps : List Path) (d : Disk) : (visits a o d ps).map Visit.file = ps := by
  induction ps generalizing d with
  | nil => rfl
  | cons p ps ih => rw [visits_cons hext, List.map_cons, ih]

/-- The results of a run are those of its turns. -/
theorem compileFiles_results (ps : List Path) (d : Disk) :
    ((compileFiles a o ps : StateM Disk (List FileResult)) d).1 =
      (visits a o d ps).map (Visit.result a o) := by
  induction ps generalizing d with
  | nil => rfl
  | cons p ps ih =>
      rw [compileFiles_cons hext, visits_cons hext, List.map_cons, ih]
      rfl

/-- The turn of a file comes on the disk that the files before it leave. -/
theorem disk_of_visits {ps : List Path} {d : Disk} {before later : List Visit} {v : Visit}
    (h : visits a o d ps = before ++ v :: later) :
    v.disk = ((compileFiles a o (before.map Visit.file) : StateM Disk (List FileResult)) d).2 := by
  induction before generalizing ps d with
  | nil =>
      cases ps with
      | nil => cases h
      | cons p ps =>
          rw [visits_cons hext] at h
          cases h
          rfl
  | cons u before ih =>
      cases ps with
      | nil => cases h
      | cons p ps =>
          rw [visits_cons hext] at h
          obtain ⟨hu, hrest⟩ := List.cons.inj h
          subst hu
          rw [List.map_cons, compileFiles_cons hext]
          exact ih hrest

/-- A run without turns that fail: the other turns are what they were, and so is the disk at the end. -/
theorem compileFiles_filter {ps : List Path} {d : Disk} {keep : Visit → Bool}
    (h : ∀ v ∈ visits a o d ps, keep v = false → v.Fails a o) :
    visits a o d (((visits a o d ps).filter keep).map Visit.file) = (visits a o d ps).filter keep ∧
    (compileFiles a o (((visits a o d ps).filter keep).map Visit.file) : StateM Disk (List FileResult)) d =
      (((visits a o d ps).filter keep).map (Visit.result a o),
       ((compileFiles a o ps : StateM Disk (List FileResult)) d).2) := by
  induction ps generalizing d with
  | nil => exact ⟨rfl, rfl⟩
  | cons p ps ih =>
      rw [visits_cons hext] at h ⊢
      obtain ⟨hfirst, hrest⟩ := List.forall_mem_cons.mp h
      obtain ⟨hvisits, hrun⟩ := ih hrest
      rw [compileFiles_cons hext p ps]
      cases hkeep : keep ⟨p, d, fileOutput? a o p d⟩ with
      | true =>
          rw [List.filter_cons_of_pos hkeep, List.map_cons, visits_cons hext, hvisits, compileFiles_cons hext,
            hrun]
          exact ⟨rfl, rfl⟩
      | false =>
          -- the turn that is left out has not changed the disk, on which the rest now starts
          have hsame := Visit.after_of_fails hext (hfirst hkeep)
          rw [Visit.after] at hsame
          rw [List.filter_cons_of_neg (by simp [hkeep])]
          rw [hsame] at hvisits hrun ⊢
          exact ⟨hvisits, hrun⟩

/-- Only places where the target of a compiled file leads can change. -/
theorem bytes?_compileFiles {ps : List Path} {d : Disk} {l : Location}
    (h : ∀ v ∈ visits a o d ps, ∀ target, (compiled? v.disk v.file).isSome →
      fileTarget? o a.outDir v.file = some target → l ≠ v.disk.locate target) :
    ((compileFiles a o ps : StateM Disk (List FileResult)) d).2.bytes? l = d.bytes? l := by
  induction ps generalizing d with
  | nil => rfl
  | cons p ps ih =>
      rw [visits_cons hext] at h
      obtain ⟨hfirst, hrest⟩ := List.forall_mem_cons.mp h
      rw [compileFiles_cons hext]
      exact (ih hrest).trans ((compileFile_handled hext p d).bytes?_eq hfirst)

theorem tree_compileFiles (ps : List Path) (d : Disk) :
    ((compileFiles a o ps : StateM Disk (List FileResult)) d).2.current = d.current ∧
    ((compileFiles a o ps : StateM Disk (List FileResult)) d).2.dirs = d.dirs := by
  induction ps generalizing d with
  | nil => exact ⟨rfl, rfl⟩
  | cons p ps ih =>
      obtain ⟨hcurrent, hdirs⟩ := (compileFile_handled (a := a) hext p d).tree_eq
      rw [compileFiles_cons hext, ← hcurrent, ← hdirs]
      exact ih _

/-- With the output printed, the disk stays as it is, and what is printed is the output of every file that
    has one. -/
theorem compileFiles_printed (hprint : a.toStdout = true) (ps : List Path) (d : Disk) :
    ((compileFiles a o ps : StateM Disk (List FileResult)) d).2 = d ∧
    String.join (((compileFiles a o ps : StateM Disk (List FileResult)) d).1.map FileResult.output) =
      String.join (ps.filterMap (compiled? d)) := by
  induction ps generalizing d with
  | nil => exact ⟨rfl, rfl⟩
  | cons p ps ih =>
      have hturn := compileFile_handled (a := a) hext p d
      have hsame := hturn.eq_of_toStdout hprint
      obtain ⟨hdisk, hjoin⟩ := ih d
      rw [compileFiles_cons hext, hsame]
      refine ⟨hdisk, ?_⟩
      rw [List.map_cons, String.join_cons, hjoin, hturn.output_of_toStdout hprint]
      cases hout : compiled? d p with
      | none => rw [List.filterMap_cons_none hout, Option.getD_none, String.empty_append]
      | some output => rw [List.filterMap_cons_some hout, String.join_cons, Option.getD_some]

theorem compileFiles_silent (hprint : a.toStdout = false) (ps : List Path) (d : Disk) :
    String.join (((compileFiles a o ps : StateM Disk (List FileResult)) d).1.map FileResult.output) = "" := by
  induction ps generalizing d with
  | nil => rfl
  | cons p ps ih =>
      have hturn := compileFile_handled (a := a) hext p d
      rw [compileFiles_cons hext, List.map_cons, String.join_cons, hturn.output_of_not_toStdout hprint, ih]
      rfl

end

/-! ## Statuses -/

/-- The status of a run is the highest that one of its files asks for. -/
theorem status_ofFiles_le_iff (rs : List FileResult) (n : Nat) :
    (Result.ofFiles rs).status ≤ n ↔ ∀ r ∈ rs, r.status ≤ n := by
  have hfold : ∀ k, rs.foldl (fun n r => max n r.status) k ≤ n ↔ k ≤ n ∧ ∀ r ∈ rs, r.status ≤ n := by
    induction rs with
    | nil => simp
    | cons r rs ih =>
        intro k
        rw [List.foldl_cons, ih, List.forall_mem_cons, Nat.max_le, and_assoc]
  rw [Result.ofFiles, hfold]
  exact and_iff_right (Nat.zero_le n)

theorem status_le_ofFiles {rs : List FileResult} {r : FileResult} (h : r ∈ rs) :
    r.status ≤ (Result.ofFiles rs).status :=
  (status_ofFiles_le_iff rs _).mp (Nat.le_refl _) r h

section

variable {a : Arguments} {o : Options} (hext : '/' ∉ o.outExtension) {vs : List Visit}
include hext

theorem status_of_refused (h : ∃ v ∈ vs, v.Refused) :
    (Result.ofFiles (vs.map (Visit.result a o))).status = statusRefused := by
  obtain ⟨v, hv, hrefused⟩ := h
  apply Nat.le_antisymm
  · rw [status_ofFiles_le_iff, List.forall_mem_map]
    intro u _
    rcases u.turn_cases (a := a) hext with ⟨_, hstatus, _⟩ | ⟨_, _, hstatus, _⟩ | ⟨_, hstatus⟩ <;>
      rw [hstatus] <;> decide
  · rcases v.turn_cases (a := a) hext with ⟨_, hstatus, _⟩ | ⟨_, hnot, _⟩ | ⟨hnot, _⟩
    · rw [← hstatus]
      exact status_le_ofFiles (List.mem_map_of_mem hv)
    · exact absurd hrefused hnot
    · exact absurd (.inr (.inl hrefused)) hnot

theorem status_of_failed (hnone : ∀ v ∈ vs, ¬ v.Refused)
    (h : ∃ v ∈ vs, v.Unreadable ∨ v.Unwritable a o) :
    (Result.ofFiles (vs.map (Visit.result a o))).status = statusFailed := by
  obtain ⟨v, hv, hfailed⟩ := h
  apply Nat.le_antisymm
  · rw [status_ofFiles_le_iff, List.forall_mem_map]
    intro u hu
    rcases u.turn_cases (a := a) hext with ⟨hrefused, _⟩ | ⟨_, _, hstatus, _⟩ | ⟨_, hstatus⟩
    · exact absurd hrefused (hnone u hu)
    · exact Nat.le_of_eq hstatus
    · rw [hstatus]
      decide
  · rcases v.turn_cases (a := a) hext with ⟨hrefused, _⟩ | ⟨_, _, hstatus, _⟩ | ⟨hnot, _⟩
    · exact absurd hrefused (hnone v hv)
    · rw [← hstatus]
      exact status_le_ofFiles (List.mem_map_of_mem hv)
    · rcases hfailed with hread | hwrite
      · exact absurd (.inl hread) hnot
      · exact absurd (.inr (.inr hwrite)) hnot

theorem status_of_ok (h : ∀ v ∈ vs, ¬ v.Fails a o) :
    (Result.ofFiles (vs.map (Visit.result a o))).status = statusOk := by
  apply Nat.le_zero.mp
  rw [status_ofFiles_le_iff, List.forall_mem_map]
  intro u hu
  rcases u.turn_cases (a := a) hext with ⟨hrefused, _⟩ | ⟨hread | hwrite, _⟩ | ⟨_, hstatus⟩
  · exact absurd (.inr (.inl hrefused)) (h u hu)
  · exact absurd (.inl hread) (h u hu)
  · exact absurd (.inr (.inr hwrite)) (h u hu)
  · exact Nat.le_of_eq hstatus

end

/-! ## Runs -/

/-- A run over files is the turns of its files. -/
theorem run_files {args : List String} {a : Arguments} (h : readArguments args = .run a) (hfiles : a.files ≠ [])
    {o : Options} {d : Disk} (ho : ((a.options : StateM Disk (Except ProjectError Options)) d).1 = .ok o) :
    (run args : StateM Disk Result) d =
      (.ofFiles ((compileFiles a o a.files : StateM Disk (List FileResult)) d).1,
        ((compileFiles a o a.files : StateM Disk (List FileResult)) d).2) := by
  have hoptions := options_disk a d
  have hne : (!a.files.isEmpty) = true := by simpa using hfiles
  unfold run
  rw [h]
  dsimp only
  unfold runArguments
  simp only [bind, StateT.bind]
  generalize (a.options : StateM Disk (Except ProjectError Options)) d = options at ho hoptions ⊢
  obtain ⟨_, e⟩ := options
  subst ho hoptions
  dsimp only
  rw [if_pos hne]
  rfl

/-- What a run over files does, file by file: `vs` are their turns, `result` is how the run ends, and `last`
    is the disk that it leaves. -/
structure Isolates (a : Arguments) (o : Options) (d : Disk) (vs : List Visit) (result : Result) (last : Disk) :
    Prop where
  /-- Every file has its turn. -/
  files : vs.map Visit.file = a.files
  /-- Its turn comes on the disk that the files before it leave. -/
  turns : ∀ before v later, vs = before ++ v :: later →
    v.disk = ((compileFiles a o (before.map Visit.file) : StateM Disk (List FileResult)) d).2
  /-- The run ends with what becomes of the files in their turns. -/
  results : result = .ofFiles (vs.map (Visit.result a o))
  refused : (∃ v ∈ vs, v.Refused) → result.status = 2
  failed : (∀ v ∈ vs, ¬ v.Refused) → (∃ v ∈ vs, v.Unreadable ∨ v.Unwritable a o) → result.status = 1
  succeeded : (∀ v ∈ vs, ¬ v.Fails a o) → result.status = 0
  /-- If outputs are printed, all of them are, in order, and nothing is written. -/
  printed : a.toStdout = true → result.output = String.join (a.files.filterMap (compiled? d)) ∧ last = d
  silent : a.toStdout = false → result.output = ""
  /-- Otherwise the output of each file that has one is put where its target leads, if it can be. -/
  written : a.toStdout = false → ∀ v ∈ vs, ∀ output, compiled? v.disk v.file = some output →
    ¬ v.Unwritable a o → ∃ target, fileTarget? o a.outDir v.file = some target ∧
      v.after a o = v.disk.put (v.disk.locate target) output.toUTF8
  /-- A turn that fails changes nothing. -/
  unchanged : ∀ v ∈ vs, v.Fails a o → v.after a o = v.disk
  /-- Without some of the files whose turns fail, the other turns, their results and the disk at the end are
      the same. -/
  removed : ∀ keep : Visit → Bool, (∀ v ∈ vs, keep v = false → v.Fails a o) →
    visits a o d ((vs.filter keep).map Visit.file) = vs.filter keep ∧
    (compileFiles a o ((vs.filter keep).map Visit.file) : StateM Disk (List FileResult)) d =
      ((vs.filter keep).map (Visit.result a o), last)
  /-- Only targets of compiled files change. -/
  changed : ∀ l, last.bytes? l ≠ d.bytes? l → ∃ v ∈ vs, ∃ target, (compiled? v.disk v.file).isSome ∧
    fileTarget? o a.outDir v.file = some target ∧ l = v.disk.locate target
  /-- No directory is made, and paths lead where they led. -/
  tree : last.current = d.current ∧ last.dirs = d.dirs

/-- A run over files isolates them, if the extension of the output holds no slash. -/
theorem run_isolates {args : List String} {a : Arguments} (h : readArguments args = .run a)
    (hfiles : a.files ≠ []) {o : Options} {d : Disk}
    (ho : ((a.options : StateM Disk (Except ProjectError Options)) d).1 = .ok o)
    (hext : '/' ∉ o.outExtension) :
    Isolates a o d (runVisits args d) ((run args : StateM Disk Result) d).1
      ((run args : StateM Disk Result) d).2 := by
  rw [runVisits_of_ok h ho, run_files h hfiles ho]
  dsimp only
  have hresults := compileFiles_results (a := a) hext a.files d
  refine
    { files := visits_map_file hext a.files d
      turns := fun _ _ _ hsplit => disk_of_visits hext hsplit
      results := congrArg Result.ofFiles hresults
      refused := ?_
      failed := ?_
      succeeded := ?_
      printed := fun hprint => ?_
      silent := fun hprint => compileFiles_silent hext hprint a.files d
      written := fun hprint v _ output hout hwrite => Visit.after_of_compiled hext hprint hout hwrite
      unchanged := fun v _ hfails => Visit.after_of_fails hext hfails
      removed := fun keep hkeep => compileFiles_filter hext hkeep
      changed := fun l hne => ?_
      tree := tree_compileFiles hext a.files d }
  · rw [hresults]
    exact status_of_refused hext
  · rw [hresults]
    exact status_of_failed hext
  · rw [hresults]
    exact status_of_ok hext
  · obtain ⟨hdisk, hjoin⟩ := compileFiles_printed hext hprint a.files d
    exact ⟨hjoin, hdisk⟩
  · apply Classical.byContradiction
    intro hnone
    apply hne
    apply bytes?_compileFiles hext
    intro v hv target hsome htarget heq
    exact hnone ⟨v, hv, target, hsome, htarget, heq⟩

/-- A disk with a source, one that is refused, and one whose target is a directory. -/
def failingDisk : Disk where
  current := ["work"]
  dirs := [["work"], ["work", "c.js"]]
  files := [(["work", "a.neat"], "1 == 2;".toUTF8), (["work", "b.neat"], "f(;".toUTF8),
    (["work", "c.neat"], "1;".toUTF8)]

/-- The arguments of a run in which an output is a source again. -/
def failingArguments : List String := ["b.neat", "none.neat", "a.neat", "c.neat", "a.js"]

theorem run_isolates_failingDisk :
    Isolates { files := [⟨"b.neat"⟩, ⟨"none.neat"⟩, ⟨"a.neat"⟩, ⟨"c.neat"⟩, ⟨"a.js"⟩] } ({} : Settings).resolve
      failingDisk (runVisits failingArguments failingDisk) ((run failingArguments : StateM Disk Result) failingDisk).1
      ((run failingArguments : StateM Disk Result) failingDisk).2 ∧
    ((run failingArguments : StateM Disk Result) failingDisk).1.status = 2 ∧
    ((run failingArguments : StateM Disk Result) failingDisk).2.bytes? ["work", "a.js"] =
      some "1 === 2;".toUTF8 := by
  have hargs : readArguments failingArguments =
      .run { files := [⟨"b.neat"⟩, ⟨"none.neat"⟩, ⟨"a.neat"⟩, ⟨"c.neat"⟩, ⟨"a.js"⟩] } := by
    decide +kernel
  exact ⟨run_isolates hargs (by decide) rfl (by decide), by decide +kernel, by decide +kernel⟩

end Respell.Command
