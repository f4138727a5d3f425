import Respell.Storage.Disk
import Respell.Proofs.Path.Names

/-!
# Disks as trees

A path that leads somewhere leads to one location, which can be read off the path; the disk decides
only whether it leads there. Writing a file changes what is at that location and nothing else, and
making directories changes no file. Both keep a disk in order: directories stand in directories, and
nothing is a file and a directory at once.
-/

namespace Respell.Disk

/-! ## Locations of paths -/

/-- A part that names an entry, and no other place. -/
def Names (part : String) : Prop := part ≠ "" ∧ part ≠ "." ∧ part ≠ ".."

/-- Goes one part further from a location, whatever exists. -/
def follow (l : Location) (part : String) : Location :=
  if part = "" ∨ part = "." then l else if part = ".." then l.dropLast else l ++ [part]

/-- The location that a path names, if it names one. -/
def locate (d : Disk) (p : Path) : Location := (partsOf p).foldl follow (d.startOf p)

/-- Whether there is a file or a directory at a location. -/
def holds (d : Disk) (l : Location) : Bool := d.isDir l || (d.bytes? l).isSome

theorem isDir_iff {d : Disk} {l : Location} : d.isDir l = true ↔ l = [] ∨ l ∈ d.dirs := by
  simp [isDir]

/-- A path has a last part. -/
theorem partsOf_eq_concat (p : Path) : ∃ init last, partsOf p = init ++ [last] := by
  have hne : partsOf p ≠ [] := by simp [partsOf, Path.splitSlash_ne_nil]
  exact ⟨_, _, (List.dropLast_concat_getLast hne).symm⟩

theorem follow_of_names {part : String} (h : Names part) (l : Location) : follow l part = l ++ [part] := by
  obtain ⟨hempty, hdot, hdots⟩ := h
  simp [follow, hempty, hdot, hdots]

section Steps

variable {d : Disk} {l k : Location} {part : String} {p : Path}

/-- A step to a name depends on what is there. -/
theorem step_of_names (hdir : d.isDir l = true) (hpart : Names part) :
    d.step l part =
      if maxNameBytes < part.utf8ByteSize then .error .nameTooLong
      else if d.holds (l ++ [part]) then .ok (l ++ [part]) else .error .notFound := by
  obtain ⟨hempty, hdot, hdots⟩ := hpart
  unfold step holds
  rw [if_neg (by simp [hdir]), if_neg (not_or.mpr ⟨hempty, hdot⟩), if_neg hdots]

/-- A step that goes to no name only needs a directory to start from. -/
theorem step_of_not_names (hdir : d.isDir l = true) (hpart : ¬ Names part) :
    d.step l part = .ok (follow l part) := by
  unfold step follow
  rw [if_neg (by simp [hdir])]
  by_cases hidle : part = "" ∨ part = "."
  · rw [if_pos hidle, if_pos hidle]
  · by_cases hdots : part = ".."
    · rw [if_neg hidle, if_neg hidle, if_pos hdots, if_pos hdots]
    · exact absurd ⟨(not_or.mp hidle).1, (not_or.mp hidle).2, hdots⟩ hpart

theorem isDir_of_step (h : d.step l part ≠ .error .notDirectory) : d.isDir l = true := by
  unfold step at h
  split at h
  · exact (h rfl).elim
  · next hdir => simpa using hdir

/-- A step leads from a directory to what follows, if that is there. -/
theorem step_ok_iff : d.step l part = .ok k ↔
    d.isDir l = true ∧ k = follow l part ∧
      (Names part → part.utf8ByteSize ≤ maxNameBytes ∧ d.holds (l ++ [part]) = true) := by
  constructor
  · intro h
    have hdir : d.isDir l = true := isDir_of_step (by rw [h]; simp)
    by_cases hpart : Names part
    · rw [step_of_names hdir hpart] at h
      split at h
      · cases h
      · next hlong =>
          split at h
          · next hholds =>
              cases h
              exact ⟨hdir, (follow_of_names hpart l).symm, fun _ => ⟨Nat.le_of_not_lt hlong, hholds⟩⟩
          · cases h
    · rw [step_of_not_names hdir hpart] at h
      cases h
      exact ⟨hdir, rfl, fun hnames => absurd hnames hpart⟩
  · rintro ⟨hdir, rfl, hentry⟩
    by_cases hpart : Names part
    · obtain ⟨hlong, hholds⟩ := hentry hpart
      rw [step_of_names hdir hpart, if_neg (Nat.not_lt_of_le hlong), if_pos hholds, follow_of_names hpart]
    · exact step_of_not_names hdir hpart

/-- What a step misses is a name that nothing has. -/
theorem step_notFound (h : d.step l part = .error .notFound) :
    Names part ∧ part.utf8ByteSize ≤ maxNameBytes ∧ d.holds (l ++ [part]) = false := by
  have hdir : d.isDir l = true := isDir_of_step (by rw [h]; simp)
  by_cases hpart : Names part
  · rw [step_of_names hdir hpart] at h
    split at h
    · cases h
    · next hlong =>
        split at h
        · cases h
        · next hholds => exact ⟨hpart, Nat.le_of_not_lt hlong, by simpa using hholds⟩
  · rw [step_of_not_names hdir hpart] at h
    cases h

theorem foldlM_step_cons {parts : List String} : (part :: parts).foldlM d.step l = .ok k ↔
    ∃ m, d.step l part = .ok m ∧ parts.foldlM d.step m = .ok k := by
  rw [List.foldlM_cons]
  cases d.step l part with
  | error e => simp [bind, Except.bind]
  | ok m => simp [bind, Except.bind]

theorem foldlM_step_concat {init : List String} : (init ++ [part]).foldlM d.step l = .ok k ↔
    ∃ m, init.foldlM d.step l = .ok m ∧ d.step m part = .ok k := by
  rw [List.foldlM_append]
  cases init.foldlM d.step l with
  | error e => simp [bind, Except.bind]
  | ok m =>
      cases hstep : d.step m part with
      | error e => simp [bind, Except.bind, hstep]
      | ok k => simp [bind, Except.bind, hstep, pure, Except.pure]

theorem foldlM_step_ok {parts : List String} (h : parts.foldlM d.step l = .ok k) :
    k = parts.foldl follow l := by
  induction parts generalizing l with
  | nil =>
      cases h
      rfl
  | cons part parts ih =>
      obtain ⟨m, hstep, hrest⟩ := foldlM_step_cons.mp h
      obtain ⟨_, rfl, _⟩ := step_ok_iff.mp hstep
      exact ih hrest

/-- A path leads somewhere if it passes the check and its parts lead there. -/
theorem resolve_ok_iff : d.resolve p = .ok l ↔
    checkPath p = .ok () ∧ (partsOf p).foldlM d.step (d.startOf p) = .ok l := by
  unfold resolve
  cases checkPath p with
  | error e => simp [bind, Except.bind]
  | ok u => simp [bind, Except.bind]

/-- A path leads to the location that can be read off it. -/
theorem resolve_locate (h : d.resolve p = .ok l) : l = d.locate p :=
  foldlM_step_ok (resolve_ok_iff.mp h).2

end Steps

/-! ## Order on a disk -/

/-- Directories stand in directories, and nothing is a file and a directory at once. -/
structure Tidy (d : Disk) : Prop where
  dirs_inside : ∀ l, d.isDir l = true → d.isDir l.dropLast = true
  apart : ∀ l, d.isDir l = true → d.bytes? l = none

/-- Every location above a directory is a directory. -/
theorem Tidy.isDir_of_append {d : Disk} (hd : d.Tidy) {l : Location} {names : List String}
    (h : d.isDir (l ++ names) = true) : d.isDir l = true := by
  induction names generalizing l with
  | nil => rwa [List.append_nil] at h
  | cons n names ih =>
      have hdir := ih (l := l ++ [n]) (by rwa [List.append_assoc])
      have hup := hd.dirs_inside _ hdir
      rwa [List.dropLast_concat] at hup

/-- On a tidy disk a path that ends in no name leads to a directory. -/
theorem isDir_of_resolve {d : Disk} {p : Path} {l : Location} {init : List String} {last : String}
    (hd : d.Tidy) (h : d.resolve p = .ok l) (hparts : partsOf p = init ++ [last]) (hlast : ¬ Names last) :
    d.isDir l = true := by
  have hfold := (resolve_ok_iff.mp h).2
  rw [hparts] at hfold
  obtain ⟨m, _, hstep⟩ := foldlM_step_concat.mp hfold
  obtain ⟨hdir, rfl, _⟩ := step_ok_iff.mp hstep
  unfold follow
  split
  · exact hdir
  · next hidle =>
      split
      · exact hd.dirs_inside m hdir
      · next hdots => exact absurd ⟨(not_or.mp hidle).1, (not_or.mp hidle).2, hdots⟩ hlast

/-! ## Disks on which everything is still there -/

/-- Relative paths start at the same place, and every directory and every file is still there. -/
structure Extends (d e : Disk) : Prop where
  current : e.current = d.current
  dirs : ∀ l, d.isDir l = true → e.isDir l = true
  files : ∀ l, (d.bytes? l).isSome = true → (e.bytes? l).isSome = true

namespace Extends

variable {d e f : Disk}

theorem refl (d : Disk) : Extends d d := ⟨rfl, fun _ h => h, fun _ h => h⟩

theorem trans (h₁ : Extends d e) (h₂ : Extends e f) : Extends d f :=
  ⟨h₂.current.trans h₁.current, fun l h => h₂.dirs l (h₁.dirs l h), fun l h => h₂.files l (h₁.files l h)⟩

theorem holds (h : Extends d e) {l : Location} (hl : d.holds l = true) : e.holds l = true := by
  rcases (Bool.or_eq_true _ _).mp hl with hdir | hfile
  · exact (Bool.or_eq_true _ _).mpr (.inl (h.dirs l hdir))
  · exact (Bool.or_eq_true _ _).mpr (.inr (h.files l hfile))

theorem step (h : Extends d e) {l k : Location} {part : String} (hstep : d.step l part = .ok k) :
    e.step l part = .ok k := by
  obtain ⟨hdir, hk, hentry⟩ := step_ok_iff.mp hstep
  refine step_ok_iff.mpr ⟨h.dirs l hdir, hk, fun hpart => ?_⟩
  exact ⟨(hentry hpart).1, h.holds (hentry hpart).2⟩

theorem foldlM_step (h : Extends d e) {parts : List String} {l k : Location}
    (hfold : parts.foldlM d.step l = .ok k) : parts.foldlM e.step l = .ok k := by
  induction parts generalizing l with
  | nil => exact hfold
  | cons part parts ih =>
      obtain ⟨m, hstep, hrest⟩ := foldlM_step_cons.mp hfold
      exact foldlM_step_cons.mpr ⟨m, h.step hstep, ih hrest⟩

theorem startOf (h : Extends d e) (p : Path) : e.startOf p = d.startOf p := by
  unfold Disk.startOf
  rw [h.current]

/-- Locations are read off paths in the same way. -/
theorem locate (h : Extends d e) (p : Path) : e.locate p = d.locate p := by
  unfold Disk.locate
  rw [h.startOf]

/-- A path leads where it led. -/
theorem resolve (h : Extends d e) {p : Path} {l : Location} (hp : d.resolve p = .ok l) :
    e.resolve p = .ok l := by
  obtain ⟨hcheck, hfold⟩ := resolve_ok_iff.mp hp
  refine resolve_ok_iff.mpr ⟨hcheck, ?_⟩
  rw [h.startOf]
  exact h.foldlM_step hfold

end Extends

/-! ## What is made anew -/

section New

variable {d e : Disk} {p : Path} {l m : Location} {init : List String} {last : String}

theorem resolveNew_ok (hparts : partsOf p = init ++ [last]) (h : d.resolveNew p = .ok l) :
    checkPath p = .ok () ∧
      ∃ m, init.foldlM d.step (d.startOf p) = .ok m ∧ d.isDir m = true ∧ l = m ++ [last] := by
  unfold resolveNew at h
  rw [hparts, List.dropLast_concat, List.getLast?_concat] at h
  cases hcheck : checkPath p with
  | error e =>
      rw [hcheck] at h
      cases h
  | ok u =>
      rw [hcheck] at h
      cases hinit : init.foldlM d.step (d.startOf p) with
      | error e =>
          simp [bind, Except.bind, hinit] at h
      | ok m =>
          simp only [bind, Except.bind, hinit] at h
          split at h
          · next hdir =>
              cases h
              exact ⟨rfl, m, rfl, hdir, rfl⟩
          · cases h

theorem step_of_resolve_error {e : StorageError} (hparts : partsOf p = init ++ [last])
    (hcheck : checkPath p = .ok ()) (hinit : init.foldlM d.step (d.startOf p) = .ok m)
    (h : d.resolve p = .error e) : d.step m last = .error e := by
  unfold resolve at h
  rw [hcheck, hparts, List.foldlM_append, hinit] at h
  cases hstep : d.step m last with
  | error e' =>
      simp only [bind, Except.bind, List.foldlM_cons, hstep] at h
      exact h
  | ok k =>
      simp only [bind, Except.bind, List.foldlM_cons, hstep] at h
      cases h

/-- A place where something can be made: nothing is there, its directory is, and the path leads there
    once something is. -/
structure Vacant (d : Disk) (p : Path) (l : Location) : Prop where
  inside : d.isDir l.dropLast = true
  vacant : d.holds l = false
  leads : ∀ e, Extends d e → e.holds l = true → e.resolve p = .ok l

theorem vacant_of_resolveNew (hmissing : d.resolve p = .error .notFound) (h : d.resolveNew p = .ok l) :
    Vacant d p l := by
  obtain ⟨init, last, hparts⟩ := partsOf_eq_concat p
  obtain ⟨hcheck, m, hinit, hdir, rfl⟩ := resolveNew_ok hparts h
  obtain ⟨hnames, hlong, hholds⟩ := step_notFound (step_of_resolve_error hparts hcheck hinit hmissing)
  refine ⟨by rwa [List.dropLast_concat], hholds, fun e hext hmade => resolve_ok_iff.mpr ⟨hcheck, ?_⟩⟩
  rw [hparts, hext.startOf]
  refine foldlM_step_concat.mpr ⟨m, hext.foldlM_step hinit, ?_⟩
  exact step_ok_iff.mpr ⟨hext.dirs m hdir, (follow_of_names hnames m).symm, fun _ => ⟨hlong, hmade⟩⟩

theorem Vacant.isDir (h : Vacant d p l) : d.isDir l = false := (Bool.or_eq_false_iff.mp h.vacant).1

theorem Vacant.bytes? (h : Vacant d p l) : d.bytes? l = none := by
  simpa using (Bool.or_eq_false_iff.mp h.vacant).2

end New

/-! ## Writing -/

section Writing

variable {d e : Disk} {p : Path} {l : Location} {bytes : ByteArray}

theorem isSome_bytes?_put (d : Disk) (l : Location) (bytes : ByteArray) {k : Location}
    (h : (d.bytes? k).isSome = true) : ((d.put l bytes).bytes? k).isSome = true := by
  by_cases hk : k = l
  · rw [hk, bytes?_put_self]
    rfl
  · rwa [bytes?_put_of_ne d bytes hk]

theorem extends_put (d : Disk) (l : Location) (bytes : ByteArray) : Extends d (d.put l bytes) :=
  ⟨rfl, fun _ h => h, fun _ h => isSome_bytes?_put d l bytes h⟩

theorem Tidy.put (hd : d.Tidy) (hl : d.isDir l = false) (bytes : ByteArray) : (d.put l bytes).Tidy := by
  refine ⟨hd.dirs_inside, fun k hk => ?_⟩
  have hne : k ≠ l := by
    rintro rfl
    cases hl.symm.trans hk
  rw [bytes?_put_of_ne d bytes hne]
  exact hd.apart k hk

/-- Writing gives bytes to one location, which is no directory and to which the path leads afterwards. -/
theorem write_ok (h : d.write p bytes = .ok e) :
    ∃ l, e = d.put l bytes ∧ d.isDir l = false ∧ e.resolve p = .ok l := by
  unfold write at h
  split at h
  · next l hresolve =>
      split at h
      · cases h
      · next hdir =>
          cases h
          exact ⟨l, rfl, by simpa using hdir, (extends_put d l bytes).resolve hresolve⟩
  · next hmissing =>
      cases hnew : d.resolveNew p with
      | error e =>
          rw [hnew] at h
          cases h
      | ok l =>
          rw [hnew] at h
          cases h
          have hvacant := vacant_of_resolveNew hmissing hnew
          refine ⟨l, rfl, hvacant.isDir, hvacant.leads _ (extends_put d l bytes) ?_⟩
          simp [holds]
  · cases h

end Writing

/-! ## Making directories -/

/-- More directories, in order, and the same files. -/
structure Grown (d e : Disk) : Prop where
  tidy : d.Tidy → e.Tidy
  files : e.files = d.files
  still : Extends d e

namespace Grown

variable {d e f : Disk} {p : Path}

theorem refl (d : Disk) : Grown d d := ⟨fun h => h, rfl, .refl d⟩

theorem trans (h₁ : Grown d e) (h₂ : Grown e f) : Grown d f :=
  ⟨fun h => h₂.tidy (h₁.tidy h), h₂.files.trans h₁.files, h₁.still.trans h₂.still⟩

theorem bytes? (h : Grown d e) (l : Location) : e.bytes? l = d.bytes? l := by
  unfold Disk.bytes?
  rw [h.files]

/-- A directory at a vacant place. -/
theorem of_vacant {l : Location} (h : Vacant d p l) : Grown d { d with dirs := l :: d.dirs } := by
  have hcases : ∀ k, Disk.isDir { d with dirs := l :: d.dirs } k = true ↔ k = l ∨ d.isDir k = true := by
    intro k
    rw [isDir_iff, isDir_iff, List.mem_cons]
    exact or_left_comm
  have hstill : Extends d { d with dirs := l :: d.dirs } :=
    ⟨rfl, fun k hk => (hcases k).mpr (.inr hk), fun _ hk => hk⟩
  refine ⟨fun hd => ⟨fun k hk => ?_, fun k hk => ?_⟩, rfl, hstill⟩
  · rcases (hcases k).mp hk with rfl | hk
    · exact (hcases _).mpr (.inr h.inside)
    · exact (hcases _).mpr (.inr (hd.dirs_inside k hk))
  · rcases (hcases k).mp hk with rfl | hk
    · exact h.bytes?
    · exact hd.apart k hk

theorem of_makeDir (h : d.makeDir p = .ok e) : Grown d e := by
  unfold makeDir at h
  split at h
  · cases h
  · next hmissing =>
      cases hnew : d.resolveNew p with
      | error e =>
          rw [hnew] at h
          cases h
      | ok l =>
          rw [hnew] at h
          cases h
          exact of_vacant (vacant_of_resolveNew hmissing hnew)
  · cases h

theorem ensureDir {absent : Disk × Except StorageError Unit} (h : Grown d absent.1) :
    Grown d (d.ensureDir p absent).1 := by
  unfold Disk.ensureDir
  split
  · next made hmade => exact of_makeDir hmade
  · exact h
  · exact refl d

theorem makeDirsWithin (depth : Nat) (d : Disk) (p : Path) : Grown d (makeDirsWithin depth d p).1 := by
  induction depth generalizing d p with
  | zero => exact refl d
  | succ depth ih =>
      unfold Disk.makeDirsWithin
      split
      · exact refl d
      · refine ensureDir ?_
        cases p.parent? with
        | none => exact refl d
        | some outer =>
            have habove := ih d outer
            dsimp only
            split
            · next above hmade =>
                rw [hmade] at habove
                exact habove.trans (ensureDir (refl above))
            · exact habove

end Grown

/-- Making directories makes nothing else. -/
theorem makeDirs_grown (d : Disk) (p : Path) : Grown d (d.makeDirs p).1 := Grown.makeDirsWithin _ d p

end Respell.Disk
