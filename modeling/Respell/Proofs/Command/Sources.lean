import Respell.Command.Run
import Respell.Proofs.Project.Turns

/-!
# Sources of a run

What a run over files does to the files it reads. Each file is read where its path leads, and if it compiles,
its output is put where the path of its target leads; nothing else happens to the disk. So a source is
lost exactly if the last output that is put in its place differs from what was there. Targets end in the
extension of the output, so this befalls only sources that have that extension themselves.
-/

namespace Respell.Command

open Disk Respell.Path

/-! ## Visits -/

/-- A file of a run, with the disk as it is when the file is reached. -/
structure Visit where
  file : Path
  disk : Disk
  /-- What is put on the disk for the file: where, and which bytes. -/
  output? : Option (Location × ByteArray)

namespace Visit

/-- The file is read as a source. -/
def Reads (v : Visit) : Prop := ∃ text, v.disk.read v.file = .ok text

/-- Where the path of the file leads. -/
def source (v : Visit) : Location := v.disk.locate v.file

/-- The disk with the output of the file. -/
def apply (d : Disk) (v : Visit) : Disk :=
  match v.output? with
  | some (l, bytes) => d.put l bytes
  | none => d

end Visit

/-- What is put on a disk for a file: the output, if the file can be read and compiled and its target can be
    named and written. -/
def fileOutput? (a : Arguments) (o : Options) (p : Path) (d : Disk) : Option (Location × ByteArray) := do
  let text ← (d.read p).toOption
  let output ← (Engine.compile p.text text).toOption
  if a.toStdout then none
  else
    let target ← fileTarget? o a.outDir p
    let _ ← (d.write target output.toUTF8).toOption
    return (d.locate target, output.toUTF8)

/-- The files of a run that are reached, one after the other. -/
def visits (a : Arguments) (o : Options) : Disk → List Path → List Visit
  | _, [] => []
  | d, p :: ps =>
    let r := (compileFile a o p : StateM Disk FileResult) d
    ⟨p, d, fileOutput? a o p d⟩ :: if r.1 = .unnamable then [] else visits a o r.2 ps

/-- The files that a command line visits. -/
def runVisits (args : List String) (d : Disk) : List Visit :=
  match readArguments args with
  | .run a =>
    match ((a.options : StateM Disk (Except ProjectError Options)) d).1 with
    | .ok o => visits a o d a.files
    | .error _ => []
  | _ => []

/-! ## Writes -/

/-- Writing puts the bytes where the path leads, and that is no directory. -/
theorem write_locate {d e : Disk} {p : Path} {bytes : ByteArray} (h : d.write p bytes = .ok e) :
    e = d.put (d.locate p) bytes ∧ d.isDir (d.locate p) = false ∧ e.resolve p = .ok (d.locate p) := by
  obtain ⟨l, rfl, hdir, hresolve⟩ := write_ok h
  have hl : l = d.locate p := by
    rw [resolve_locate hresolve]
    exact (extends_put d l bytes).locate p
  subst hl
  exact ⟨rfl, hdir, hresolve⟩

section Files

variable (a : Arguments) (o : Options)

/-- One file changes the disk by its output alone. -/
theorem compileFile_disk (p : Path) (d : Disk) :
    ((compileFile a o p : StateM Disk FileResult) d).2 = Visit.apply d ⟨p, d, fileOutput? a o p d⟩ := by
  unfold compileFile fileOutput? Visit.apply
  simp only [bind, StateT.bind, Storage.readText]
  cases hread : d.read p with
  | error e => rfl
  | ok text =>
      simp only [Except.toOption, Option.bind]
      cases hcompile : Engine.compile p.text text with
      | error diagnostic => rfl
      | ok output =>
          cases hstdout : a.toStdout with
          | true => rfl
          | false =>
              simp only [Bool.false_eq_true, ↓reduceIte]
              cases htarget : fileTarget? o a.outDir p with
              | none => rfl
              | some target =>
                  cases hwrite : d.write target output.toUTF8 with
                  | error e =>
                      simp only [StateT.bind, Storage.writeText, hwrite]
                      rfl
                  | ok e =>
                      obtain ⟨rfl, _, _⟩ := write_locate hwrite
                      simp only [StateT.bind, Storage.writeText, hwrite]
                      rfl

/-- Files one after the other change the disk by their outputs alone. -/
theorem compileFiles_disk (ps : List Path) (d : Disk) :
    ((compileFiles a o ps : StateM Disk (List FileResult)) d).2 = (visits a o d ps).foldl Visit.apply d := by
  induction ps generalizing d with
  | nil => rfl
  | cons p ps ih =>
      have hstep := compileFile_disk a o p d
      unfold compileFiles visits
      simp only [bind, StateT.bind, List.foldl_cons]
      rw [← hstep]
      cases (compileFile a o p : StateM Disk FileResult) d with
      | mk r e =>
          dsimp only
          by_cases hr : r = .unnamable
          · rw [if_pos hr, if_pos hr]
            rfl
          · rw [if_neg hr, if_neg hr]
            exact ih e

end Files

/-- Finding out the options changes nothing. -/
theorem options_disk (a : Arguments) (d : Disk) :
    ((a.options : StateM Disk (Except ProjectError Options)) d).2 = d := by
  unfold Arguments.options
  cases a.project with
  | none => rfl
  | some path =>
      simp only [bind, StateT.bind, ProjectFile.load, Storage.readText]
      cases d.read path with
      | error e => rfl
      | ok text =>
          dsimp only
          cases ProjectFile.parse text with
          | error flaw => rfl
          | ok file => rfl

section Run

variable {args : List String} {a : Arguments} (h : readArguments args = .run a)
include h

theorem runVisits_of_ok {o : Options} {d : Disk}
    (ho : ((a.options : StateM Disk (Except ProjectError Options)) d).1 = .ok o) :
    runVisits args d = visits a o d a.files := by
  unfold runVisits
  rw [h]
  dsimp only
  rw [ho]

/-- A run over files changes the disk by the outputs of its files alone. -/
theorem run_disk (hfiles : a.files ≠ []) (d : Disk) :
    ((run args : StateM Disk Result) d).2 = (runVisits args d).foldl Visit.apply d := by
  have hoptions := options_disk a d
  have hne : (!a.files.isEmpty) = true := by simpa using hfiles
  unfold run runVisits
  rw [h]
  dsimp only
  unfold runArguments
  simp only [bind, StateT.bind]
  cases hrun : (a.options : StateM Disk (Except ProjectError Options)) d with
  | mk options e =>
      rw [hrun] at hoptions
      subst hoptions
      cases options with
      | error e => rfl
      | ok o =>
          dsimp only
          rw [if_pos hne]
          exact compileFiles_disk a o a.files e

end Run

/-! ## What is put last -/

/-- None of the files has its output put at the location. -/
def Untouched (vs : List Visit) (l : Location) : Prop := ∀ v ∈ vs, ∀ bytes, v.output? ≠ some (l, bytes)

/-- Of the outputs that are put at the location, the last one has these bytes. -/
def LastOutput (vs : List Visit) (l : Location) (bytes : ByteArray) : Prop :=
  ∃ before v after, vs = before ++ v :: after ∧ v.output? = some (l, bytes) ∧ Untouched after l

theorem bytes?_of_untouched {vs : List Visit} {l : Location} (h : Untouched vs l) (d : Disk) :
    (vs.foldl Visit.apply d).bytes? l = d.bytes? l := by
  induction vs generalizing d with
  | nil => rfl
  | cons v vs ih =>
      obtain ⟨hv, hvs⟩ := List.forall_mem_cons.mp h
      rw [List.foldl_cons, ih hvs]
      unfold Visit.apply
      cases hout : v.output? with
      | none => rfl
      | some w =>
          obtain ⟨k, bytes⟩ := w
          have hne : l ≠ k := by
            rintro rfl
            exact hv bytes hout
          exact bytes?_put_of_ne d bytes hne

theorem bytes?_of_lastOutput {vs : List Visit} {l : Location} {bytes : ByteArray}
    (h : LastOutput vs l bytes) (d : Disk) : (vs.foldl Visit.apply d).bytes? l = some bytes := by
  obtain ⟨before, v, after, rfl, hv, hafter⟩ := h
  rw [List.foldl_append, List.foldl_cons, bytes?_of_untouched hafter]
  unfold Visit.apply
  rw [hv]
  exact bytes?_put_self _ l bytes

theorem untouched_or_lastOutput (vs : List Visit) (l : Location) :
    Untouched vs l ∨ ∃ bytes, LastOutput vs l bytes := by
  induction vs with
  | nil => exact .inl fun v hv => by cases hv
  | cons v vs ih =>
      rcases ih with hvs | ⟨bytes, before, w, after, rfl, hw, hafter⟩
      · by_cases hv : ∃ bytes, v.output? = some (l, bytes)
        · obtain ⟨bytes, hv⟩ := hv
          exact .inr ⟨bytes, [], v, vs, rfl, hv, hvs⟩
        · refine .inl (List.forall_mem_cons.mpr ⟨?_, hvs⟩)
          intro bytes heq
          exact hv ⟨bytes, heq⟩
      · exact .inr ⟨bytes, v :: before, w, after, rfl, hw, hafter⟩

/-- A location has the bytes that it had if what is put there last, if anything is, has these bytes. -/
theorem bytes?_eq_iff (vs : List Visit) (d : Disk) (l : Location) :
    (vs.foldl Visit.apply d).bytes? l = d.bytes? l ↔
      ∀ bytes, LastOutput vs l bytes → d.bytes? l = some bytes := by
  constructor
  · intro hsame bytes hlast
    rw [← hsame]
    exact bytes?_of_lastOutput hlast d
  · intro hall
    rcases untouched_or_lastOutput vs l with hnone | ⟨bytes, hlast⟩
    · exact bytes?_of_untouched hnone d
    · rw [hall bytes hlast]
      exact bytes?_of_lastOutput hlast d

/-! ## Last names -/

/-- A path that divides into what stands before a name and the name leads to an entry of that name. -/
theorem locate_of_proper {p : Path} {as w : List Char} (hopens : Opens as) (hw : Proper w)
    (hp : p.chars = as ++ w) (d : Disk) : ∃ dir, d.locate p = dir ++ [String.ofList w] := by
  obtain ⟨ws, hsplit, _⟩ := hopens.pieces
  have hnames : Names (String.ofList w) := names_of_proper (by rwa [String.toList_ofList])
  refine ⟨(ws.map String.ofList).foldl follow (d.startOf p), ?_⟩
  rw [locate, partsOf, hp, hsplit w hw.slash_notMem, List.map_append, List.foldl_append, List.map_singleton]
  exact follow_of_names hnames _

/-- The path of a file on a tidy disk ends in a name. -/
theorem proper_of_read {d : Disk} (hd : d.Tidy) {p : Path} {text : String} (h : d.read p = .ok text) :
    ∃ as w, Opens as ∧ Proper w ∧ p.chars = as ++ w := by
  obtain ⟨l, hresolve, htext⟩ := Disk.read_ok h
  obtain ⟨init, last, hparts⟩ := partsOf_eq_concat p
  have hlast : Names last := by
    by_cases hlast : Names last
    · exact hlast
    · -- A directory has no text.
      have hnone := hd.apart l (isDir_of_resolve hd hresolve hparts hlast)
      simp [Disk.text?, hnone] at htext
  obtain ⟨ws, w, hws, rfl⟩ : ∃ ws w, splitSlash p.chars = ws ++ [w] ∧ String.ofList w = last := by
    rw [partsOf] at hparts
    obtain ⟨ws, ws', hsplit, _, hlast'⟩ := List.map_eq_append_iff.mp hparts
    obtain ⟨w, rfl, hw⟩ := List.map_eq_singleton_iff.mp hlast'
    exact ⟨ws, w, hsplit, hw⟩
  have hslash : '/' ∉ w := notMem_of_mem_splitSlash (by rw [hws]; simp)
  obtain ⟨as, hopens, hjoin⟩ := Opens.append_joinSlash (.inl rfl : Opens []) ws
  refine ⟨as, w, hopens, ?_, ?_⟩
  · obtain ⟨hempty, hdot, hdots⟩ := hlast
    refine ⟨⟨?_, ?_, hslash⟩, ?_⟩
    · rintro rfl
      exact hempty rfl
    · rintro rfl
      exact hdot rfl
    · rintro rfl
      exact hdots rfl
  · rw [← hjoin w, ← hws, joinSlash_splitSlash, List.nil_append]

/-- What is put before an extension makes a name of an entry. -/
theorem proper_append {stem ext : List Char} (hstem : stem ≠ []) (hext : ext ≠ []) (hslash : '/' ∉ stem)
    (hslash' : '/' ∉ ext) : Proper (stem ++ '.' :: ext) := by
  have hlength : 3 ≤ (stem ++ '.' :: ext).length := by
    have := List.length_pos_iff.mpr hstem
    have := List.length_pos_iff.mpr hext
    rw [List.length_append, List.length_cons]
    omega
  refine ⟨⟨?_, ?_, ?_⟩, ?_⟩
  · simp
  · intro heq
    simp [heq] at hlength
  · simp [hslash, hslash']
  · intro heq
    simp [heq] at hlength

/-- The output beside a file: its name ends in the extension of the output, unless it is two dots. -/
theorem outputPath?_name {o : Options} (hext : o.outExtension ≠ []) {p beside : Path} {as w : List Char}
    (hopens : Opens as) (hw : Proper w) (hp : p.chars = as ++ w) (h : o.outputPath? p = some beside) :
    (∃ stem, Proper (stem ++ '.' :: o.outExtension) ∧
      beside.chars = as ++ (stem ++ '.' :: o.outExtension)) ∨ beside.chars = as ++ ['.', '.'] := by
  have hslash : '/' ∉ o.outExtension := by
    intro hmem
    simp [Options.outputPath?, withExtension?, hmem] at h
  unfold Options.outputPath? at h
  cases hname : splitName w with
  | mk stem old? =>
      cases old? with
      | some old =>
          obtain ⟨rfl, hstem, hold⟩ := splitName_some hname
          rw [withExtension?_eq hopens hw hstem hold hslash hp, Option.some.injEq] at h
          subst h
          rw [chars_ofChars]
          by_cases hdot : stem = ['.']
          · exact .inr (by rw [outputName, if_pos hdot])
          · have hproper := proper_append hstem hext (fun hs => hw.slash_notMem (by simp [hs])) hslash
            exact .inl ⟨stem, hproper, by rw [outputName, if_neg hdot, if_neg hext]⟩
      | none =>
          have hstem : stem = w := by
            unfold splitName at hname
            dsimp only at hname
            split at hname
            · exact (congrArg Prod.fst hname).symm
            · cases hname
          subst hstem
          have hnone : p.extension? = none := by
            rw [extension?, fileName?_eq hopens hw hp, Option.bind_some, hname]
          rw [withExtension?, if_neg (by simpa using hslash), hnone] at h
          dsimp only at h
          rw [setExtension_eq hopens hw hp, rename, hname, if_neg hext, Option.some.injEq] at h
          subst h
          rw [chars_ofChars]
          exact .inl ⟨stem, proper_append hw.ne_nil hext hw.slash_notMem hslash, rfl⟩

/-- Where the output of a file goes: the last name ends in the extension of the output, unless it is two
    dots. -/
theorem fileTarget?_name {o : Options} (hext : o.outExtension ≠ []) {outDir : Option Path} {p target : Path}
    {as w : List Char} (hopens : Opens as) (hw : Proper w) (hp : p.chars = as ++ w)
    (h : fileTarget? o outDir p = some target) :
    ∃ bs, Opens bs ∧ ((∃ stem, Proper (stem ++ '.' :: o.outExtension) ∧
      target.chars = bs ++ (stem ++ '.' :: o.outExtension)) ∨ target.chars = bs ++ ['.', '.']) := by
  unfold fileTarget? at h
  cases hbeside : o.outputPath? p with
  | none =>
      rw [hbeside] at h
      cases h
  | some beside =>
      rw [hbeside, Option.bind_eq_bind, Option.bind_some] at h
      rcases outputPath?_name hext hopens hw hp hbeside with ⟨stem, hproper, hchars⟩ | hchars
      · have hfile := fileName?_eq hopens hproper hchars
        rw [hfile] at h
        cases outDir with
        | none =>
            cases h
            exact ⟨as, hopens, .inl ⟨stem, hproper, hchars⟩⟩
        | some dir =>
            cases h
            have hlive : Live (String.ofList (stem ++ '.' :: o.outExtension)).toList := by
              rw [String.toList_ofList]
              exact hproper.toLive
            refine ⟨dir.opening, opens_opening dir, .inl ⟨stem, hproper, ?_⟩⟩
            have hrelative : (ofChars (stem ++ '.' :: o.outExtension)).isAbsolute = false :=
              isAbsolute_name hlive
            rw [join_eq dir hrelative, chars_ofChars, chars_ofChars]
      · have hfile : beside.fileName? = none := by
          obtain ⟨ws, hparts, _⟩ := parts_eq hopens ⟨by decide, by decide, by decide⟩ hchars
          rw [fileName?, hparts, List.getLast?_append]
          rfl
        rw [hfile] at h
        refine ⟨as, hopens, .inr ?_⟩
        cases outDir with
        | none =>
            cases h
            exact hchars
        | some dir =>
            cases h
            exact hchars

/-- On a tidy disk nothing is written where two dots lead. -/
theorem write_dots {d e : Disk} (hd : d.Tidy) {p : Path} {bs : List Char} (hopens : Opens bs)
    (hp : p.chars = bs ++ ['.', '.']) {bytes : ByteArray} (h : d.write p bytes = .ok e) : False := by
  obtain ⟨rfl, hdir, hresolve⟩ := write_locate h
  obtain ⟨ws, hsplit, _⟩ := hopens.pieces
  have hparts : partsOf p = ws.map String.ofList ++ [".."] := by
    rw [partsOf, hp, hsplit _ (by decide), List.map_append]
    rfl
  have hdir' := isDir_of_resolve (hd.put hdir bytes) hresolve hparts (fun hnames => hnames.2.2 rfl)
  exact absurd (hdir.symm.trans hdir') (by decide)

/-- What is put on the disk for a file that can be read is put where its target leads. -/
theorem fileOutput?_some {a : Arguments} {o : Options} {p : Path} {d : Disk} {l : Location}
    {bytes : ByteArray} (h : fileOutput? a o p d = some (l, bytes)) :
    ∃ text target e, d.read p = .ok text ∧ fileTarget? o a.outDir p = some target ∧
      d.write target bytes = .ok e ∧ l = d.locate target := by
  unfold fileOutput? at h
  cases hread : d.read p with
  | error e => simp [hread, Except.toOption] at h
  | ok text =>
      cases hcompile : Engine.compile p.text text with
      | error diagnostic => simp [hread, hcompile, Except.toOption] at h
      | ok output =>
          cases hstdout : a.toStdout with
          | true => simp [hread, hstdout, Except.toOption] at h
          | false =>
              cases htarget : fileTarget? o a.outDir p with
              | none => simp [hread, hstdout, htarget, Except.toOption] at h
              | some target =>
                  cases hwrite : d.write target output.toUTF8 with
                  | error e =>
                      simp only [hread, hcompile, hstdout, htarget, hwrite, Except.toOption, Option.bind_eq_bind,
                        Option.bind_some, Option.bind_none] at h
                      cases h
                  | ok e =>
                      simp only [hread, hcompile, hstdout, htarget, hwrite, Except.toOption, Option.bind_eq_bind,
                        Option.bind_some] at h
                      cases h
                      exact ⟨text, target, e, rfl, rfl, hwrite, rfl⟩

/-- On a tidy disk the output of a file is put under a name that ends in the extension of the output. -/
theorem fileOutput?_name {a : Arguments} {o : Options} (hext : o.outExtension ≠ []) {p : Path} {d : Disk}
    (hd : d.Tidy) {l : Location} {bytes : ByteArray} (h : fileOutput? a o p d = some (l, bytes)) :
    ∃ dir stem, l = dir ++ [String.ofList (stem ++ '.' :: o.outExtension)] := by
  obtain ⟨text, target, e, hread, htarget, hwrite, rfl⟩ := fileOutput?_some h
  obtain ⟨as, w, hopens, hw, hp⟩ := proper_of_read hd hread
  obtain ⟨bs, hopens', hname⟩ := fileTarget?_name hext hopens hw hp htarget
  rcases hname with ⟨stem, hproper, hchars⟩ | hchars
  · obtain ⟨dir, hlocate⟩ := locate_of_proper hopens' hproper hchars d
    exact ⟨dir, stem, hlocate⟩
  · exact (write_dots hd hopens' hchars hwrite).elim

/-! ## Visits on tidy disks -/

theorem tidy_of_visit {a : Arguments} {o : Options} {p : Path} {d : Disk} (hd : d.Tidy) :
    (Visit.apply d ⟨p, d, fileOutput? a o p d⟩).Tidy := by
  unfold Visit.apply
  cases hout : fileOutput? a o p d with
  | none => exact hd
  | some w =>
      obtain ⟨l, bytes⟩ := w
      obtain ⟨_, _, _, _, _, hwrite, rfl⟩ := fileOutput?_some hout
      exact hd.put (write_locate hwrite).2.1 bytes

/-- Every file is met on a tidy disk, with the output that it has there. -/
theorem visits_tidy {a : Arguments} {o : Options} {ps : List Path} {d : Disk} (hd : d.Tidy) :
    ∀ v ∈ visits a o d ps, v.disk.Tidy ∧ v.output? = fileOutput? a o v.file v.disk := by
  induction ps generalizing d with
  | nil => exact fun v hv => by cases hv
  | cons p ps ih =>
      refine List.forall_mem_cons.mpr ⟨⟨hd, rfl⟩, ?_⟩
      split
      · exact fun v hv => by cases hv
      · apply ih
        rw [compileFile_disk]
        exact tidy_of_visit hd

/-- Nothing is put where there is a source whose path does not end in the extension of the output. -/
theorem untouched_source {a : Arguments} {o : Options} (hext : o.outExtension ≠ []) {ps : List Path}
    {d : Disk} (hd : d.Tidy) {v : Visit} (hv : v ∈ visits a o d ps) (hreads : v.Reads)
    (hend : ¬ ('.' :: o.outExtension) <:+ v.file.chars) : Untouched (visits a o d ps) v.source := by
  intro u hu bytes hout
  obtain ⟨text, hread⟩ := hreads
  obtain ⟨as, w, hopens, hw, hchars⟩ := proper_of_read (visits_tidy hd v hv).1 hread
  obtain ⟨dir, hlocate⟩ := locate_of_proper hopens hw hchars v.disk
  obtain ⟨hdu, houtput⟩ := visits_tidy hd u hu
  obtain ⟨dir', stem, hl⟩ := fileOutput?_name hext hdu (houtput ▸ hout)
  rw [Visit.source, hlocate] at hl
  have hname : w = stem ++ '.' :: o.outExtension := by
    have hlast := (List.append_inj' hl rfl).2
    exact String.ofList_injective (List.singleton_inj.mp hlast)
  apply hend
  rw [hchars, hname, ← List.append_assoc]
  exact List.suffix_append _ _

/-! ## Runs -/

/-- Every file that the run reads as a source has the same bytes after the run as before it. -/
def KeepsSources (args : List String) (d : Disk) : Prop :=
  ∀ v ∈ runVisits args d, v.Reads →
    ((run args : StateM Disk Result) d).2.bytes? v.source = d.bytes? v.source

/-- A run over files keeps its sources exactly if what it puts last in the place of one is what was there.
    A source whose path does not end in the extension of the output is kept in any case. -/
theorem keepsSources_iff {args : List String} {a : Arguments} (h : readArguments args = .run a)
    (hfiles : a.files ≠ []) (d : Disk) :
    (KeepsSources args d ↔ ∀ v ∈ runVisits args d, v.Reads →
      ∀ bytes, LastOutput (runVisits args d) v.source bytes → d.bytes? v.source = some bytes) ∧
    (d.Tidy → ∀ o, ((a.options : StateM Disk (Except ProjectError Options)) d).1 = .ok o →
      o.outExtension ≠ [] → ∀ v ∈ runVisits args d, v.Reads →
        ¬ ('.' :: o.outExtension) <:+ v.file.chars →
        ((run args : StateM Disk Result) d).2.bytes? v.source = d.bytes? v.source) := by
  unfold KeepsSources
  rw [run_disk h hfiles d]
  refine ⟨?_, ?_⟩
  · simp only [bytes?_eq_iff]
  · intro hd o ho hext v hv hreads hend
    rw [runVisits_of_ok h ho] at hv ⊢
    exact bytes?_of_untouched (untouched_source hext hd hv hreads hend) d

/-- A source with the extension of an output, which compiles to itself, beside one that does not. -/
def rewritingDisk : Disk where
  current := ["work"]
  dirs := [["work"]]
  files := [(["work", "a.neat"], "1 == 2;".toUTF8), (["work", "b.js"], "1;".toUTF8)]

theorem keepsSources_iff_rewritingDisk :
    KeepsSources ["a.neat", "b.js"] rewritingDisk ∧
    (∀ v ∈ runVisits ["a.neat", "b.js"] rewritingDisk, v.Reads →
      ∀ bytes, LastOutput (runVisits ["a.neat", "b.js"] rewritingDisk) v.source bytes →
        rewritingDisk.bytes? v.source = some bytes) ∧
    ∀ v ∈ runVisits ["a.neat", "b.js"] rewritingDisk, v.Reads → ¬ ['.', 'j', 's'] <:+ v.file.chars →
      ((run ["a.neat", "b.js"] : StateM Disk Result) rewritingDisk).2.bytes? v.source =
        rewritingDisk.bytes? v.source := by
  have hsources : (runVisits ["a.neat", "b.js"] rewritingDisk).map Visit.source =
      [["work", "a.neat"], ["work", "b.js"]] := by
    decide +kernel
  have hbytes : ∀ l ∈ [["work", "a.neat"], ["work", "b.js"]],
      ((run ["a.neat", "b.js"] : StateM Disk Result) rewritingDisk).2.bytes? l = rewritingDisk.bytes? l := by
    decide +kernel
  have hkeeps : KeepsSources ["a.neat", "b.js"] rewritingDisk := by
    intro v hv _
    apply hbytes
    rw [← hsources]
    exact List.mem_map_of_mem hv
  have hargs : readArguments ["a.neat", "b.js"] = .run { files := [⟨"a.neat"⟩, ⟨"b.js"⟩] } := by
    decide +kernel
  obtain ⟨hiff, hnames⟩ := keepsSources_iff hargs (by decide) rewritingDisk
  have htidy : rewritingDisk.WellFormed := by decide
  exact ⟨hkeeps, hiff.mp hkeeps, hnames htidy.toTidy _ rfl (by decide)⟩

/-- A source with the extension of the output, which does not compile to itself. -/
def overwrittenDisk : Disk where
  current := ["work"]
  dirs := [["work"]]
  files := [(["work", "a.js"], "1 == 2;".toUTF8)]

/-- A file that has the extension of the output is overwritten with its output. -/
theorem not_keepsSources_overwrittenDisk : ¬ KeepsSources ["a.js"] overwrittenDisk := by
  intro hkeeps
  have hargs : readArguments ["a.js"] = .run { files := [⟨"a.js"⟩] } := by decide +kernel
  obtain ⟨v, hv, hfile, hdisk⟩ : ∃ v ∈ runVisits ["a.js"] overwrittenDisk,
      v.file = ⟨"a.js"⟩ ∧ v.disk = overwrittenDisk := by
    rw [runVisits_of_ok hargs rfl]
    exact ⟨_, List.mem_cons_self, rfl, rfl⟩
  have hreads : v.Reads := by
    have hsome : (overwrittenDisk.read ⟨"a.js"⟩).toOption.isSome = true := by decide +kernel
    unfold Visit.Reads
    rw [hfile, hdisk]
    cases hread : overwrittenDisk.read ⟨"a.js"⟩ with
    | error e =>
        rw [hread] at hsome
        cases hsome
    | ok text => exact ⟨text, rfl⟩
  have hsame := hkeeps v hv hreads
  rw [Visit.source, hfile, hdisk] at hsame
  have hchanged : ((run ["a.js"] : StateM Disk Result) overwrittenDisk).2.bytes?
      (overwrittenDisk.locate ⟨"a.js"⟩) ≠ overwrittenDisk.bytes? (overwrittenDisk.locate ⟨"a.js"⟩) := by
    decide +kernel
  exact hchanged hsame

end Respell.Command
