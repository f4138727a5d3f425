import Respell.Proofs.Project.Targets
import Respell.Proofs.Storage.Script

/-!
# Workers

Compiling one source is a script of at most three operations: the source is read, the directory of its
target is made, and the output is written. What a worker with this script does alone is what compiling
the source does; and compiling sources one after the other is what workers do that wait for each other.
-/

namespace Respell

/-! ## What a worker asks for -/

/-- How a worker ends. -/
abbrev Ending := Except BatchError Outcome

namespace Worker

/-- A worker that has only to write its output. -/
def writing (target : Path) (output : String) : Script Ending :=
  .writeText target output fun written =>
    match written with
    | .ok () => .done (.ok (.written target))
    | .error e => .done (.error (.io ⟨target, e⟩))

/-- A worker that has its output: it makes the directory, if there is one to make, and writes. -/
def placing (target : Path) (output : String) : Script Ending :=
  match target.parent? with
  | none => writing target output
  | some parent =>
    .createDirs parent fun made =>
      match made with
      | .ok () => writing target output
      | .error e => .done (.error (.io ⟨parent, e⟩))

/-- A worker that has had an answer to its first request, for the source. -/
def translating (o : Options) (dest : Path) (s : Source) : Except StorageError String → Script Ending
  | .error e => .done (.error (.io ⟨s.path, e⟩))
  | .ok text =>
    match Engine.compile s.path.text text with
    | .error diagnostic => .done (.ok (.refused diagnostic))
    | .ok output =>
      match o.target? dest s with
      | none => .done (.error .unnamable)
      | some target => placing target output

theorem placing_ne_done (target : Path) (output : String) (ending : Ending) :
    placing target output ≠ .done ending := by
  unfold placing
  cases target.parent? with
  | none => exact fun h => by cases h
  | some parent => exact fun h => by cases h

theorem place_eq (target : Path) (output : String) :
    ((place target output : Script _) >>= fun placed =>
      pure ((placed.map fun _ => Outcome.written target).mapError BatchError.io)) = placing target output := by
  unfold place place.makeParent placing
  cases target.parent? with
  | none =>
      refine congrArg (Script.writeText target output) (funext fun written => ?_)
      cases written with
      | error e => rfl
      | ok u => rfl
  | some parent =>
      refine congrArg (Script.createDirs parent) (funext fun made => ?_)
      cases made with
      | error e => rfl
      | ok u =>
          refine congrArg (Script.writeText target output) (funext fun written => ?_)
          cases written with
          | error e => rfl
          | ok u => rfl

end Worker

open Worker

/-- A worker first asks for its source. -/
theorem compileSource_eq (o : Options) (dest : Path) (s : Source) :
    (compileSource o dest s : Script Ending) = .readText s.path (translating o dest s) := by
  unfold compileSource
  refine congrArg (Script.readText s.path) (funext fun read => ?_)
  cases read with
  | error e => rfl
  | ok text =>
      unfold translating
      rw [Script.bind]
      dsimp only
      cases Engine.compile s.path.text text with
      | error diagnostic => rfl
      | ok output =>
          dsimp only
          cases o.target? dest s with
          | none => rfl
          | some target => exact place_eq target output

/-! ## What a worker does -/

theorem run_makeParent (target : Path) :
    (place.makeParent target : Script _).run = (place.makeParent target : StateM Disk _) := by
  unfold place.makeParent
  cases target.parent? with
  | none => rfl
  | some parent => exact Script.run_bind _ _

theorem run_place (target : Path) (output : String) :
    (place target output : Script _).run = (place target output : StateM Disk _) := by
  unfold place
  rw [Script.run_bind, run_makeParent]
  refine bind_congr fun made => ?_
  cases made with
  | error f => rfl
  | ok u =>
      dsimp only
      rw [Script.run_bind, Script.run_writeText]
      refine bind_congr fun written => ?_
      cases written with
      | error e => rfl
      | ok u => rfl

/-- What a worker does is what compiling its source does. -/
theorem run_compileSource (o : Options) (dest : Path) (s : Source) :
    (compileSource o dest s : Script Ending).run = (compileSource o dest s : StateM Disk Ending) := by
  unfold compileSource
  rw [Script.run_bind, Script.run_readText]
  refine bind_congr fun read => ?_
  cases read with
  | error e => rfl
  | ok text =>
      dsimp only
      cases Engine.compile s.path.text text with
      | error diagnostic => rfl
      | ok output =>
          dsimp only
          cases o.target? dest s with
          | none => rfl
          | some target =>
              dsimp only
              rw [Script.run_bind, run_place]
              rfl

/-! ## When and how a worker ends -/

namespace Worker

/-- If a worker fails, the storage has failed. -/
def FailsByStorage (ending : Ending) : Prop := ∀ e, ending = .error e → ∃ f, e = .io f

theorem failsByStorage_ok (outcome : Outcome) : FailsByStorage (.ok outcome) := fun _ h => by cases h

theorem failsByStorage_io (f : Failure) : FailsByStorage (.error (.io f)) := by
  intro e he
  cases he
  exact ⟨f, rfl⟩

theorem ends_writing (target : Path) (output : String) : (writing target output).Ends FailsByStorage 1 := by
  refine .writeText fun written => ?_
  cases written with
  | error e => exact .done (failsByStorage_io _)
  | ok u => exact .done (failsByStorage_ok _)

theorem ends_placing (target : Path) (output : String) : (placing target output).Ends FailsByStorage 2 := by
  unfold placing
  cases target.parent? with
  | none => exact (ends_writing target output).succ
  | some parent =>
      refine .createDirs fun made => ?_
      cases made with
      | error e => exact .done (failsByStorage_io _)
      | ok u => exact ends_writing target output

end Worker

/-- A worker asks at most for its source, for a directory and for its output to be written. If its output
    can be named, it fails only where the storage does. -/
theorem ends_compileSource {o : Options} (hslash : '/' ∉ o.outExtension) (dest : Path) (s : Source) :
    (compileSource o dest s : Script Ending).Ends FailsByStorage 3 := by
  rw [compileSource_eq]
  refine .readText fun read => ?_
  cases read with
  | error e => exact .done (failsByStorage_io _)
  | ok text =>
      unfold translating
      dsimp only
      cases Engine.compile s.path.text text with
      | error diagnostic => exact .done (failsByStorage_ok _)
      | ok output =>
          obtain ⟨target, htarget⟩ := target?_of_slash_notMem o dest s hslash
          dsimp only
          rw [htarget]
          exact ends_placing target output

/-! ## One source after the other -/

section Sequence

variable {o : Options} {dest : Path} {d after : Disk}

theorem compileSources_cons_error {s : Source} (rest : List Source) {e : BatchError}
    (h : (compileSource o dest s : StateM Disk Ending) d = (.error e, after)) :
    (compileSources o dest (s :: rest) : StateM Disk _) d = (.error e, after) := by
  rw [compileSources]
  change StateT.bind _ _ d = _
  rw [StateT.bind, h]
  rfl

theorem compileSources_cons_ok {s : Source} (rest : List Source) {outcome : Outcome}
    (h : (compileSource o dest s : StateM Disk Ending) d = (.ok outcome, after)) :
    (compileSources o dest (s :: rest) : StateM Disk _) d =
      Prod.map (Except.map (outcome :: ·)) id ((compileSources o dest rest : StateM Disk _) after) := by
  rw [compileSources]
  change StateT.bind _ _ d = _
  rw [StateT.bind, h]
  rfl

/-- Sources whose outputs can be named fail only where the storage does. -/
theorem compileSources_error {sources : List Source} {e : BatchError} (hslash : '/' ∉ o.outExtension)
    (h : (compileSources o dest sources : StateM Disk _) d = (.error e, after)) : ∃ f, e = .io f := by
  induction sources generalizing d with
  | nil => cases h
  | cons s rest ih =>
      cases hfirst : (compileSource o dest s : StateM Disk Ending) d with
      | mk ending first =>
          cases ending with
          | error e' =>
              cases (compileSources_cons_error rest hfirst).symm.trans h
              have hends := (ends_compileSource hslash dest s).run d
              rw [run_compileSource, hfirst] at hends
              exact hends e rfl
          | ok outcome =>
              rw [compileSources_cons_ok rest hfirst] at h
              cases hrest : (compileSources o dest rest : StateM Disk _) first with
              | mk result last =>
                  rw [hrest] at h
                  cases result with
                  | error e' =>
                      cases h
                      exact ih hrest
                  | ok outcomes => cases h

/-- Sources that are compiled one after the other are compiled by workers that wait for each other. -/
theorem compileSources_scheduled {sources : List Source} {outcomes : List Outcome}
    (ended : List (Script Ending))
    (h : (compileSources o dest sources : StateM Disk _) d = (.ok outcomes, after)) :
    ∃ schedule, (⟨d, ended ++ sources.map fun s => compileSource o dest s⟩ : Workshop Ending).run schedule =
      ⟨after, ended ++ outcomes.map fun x => .done (.ok x)⟩ := by
  induction sources generalizing d outcomes ended with
  | nil =>
      cases h
      exact ⟨[], rfl⟩
  | cons s rest ih =>
      cases hfirst : (compileSource o dest s : StateM Disk Ending) d with
      | mk ending first =>
          cases ending with
          | error e => cases (compileSources_cons_error rest hfirst).symm.trans h
          | ok outcome =>
              rw [compileSources_cons_ok rest hfirst] at h
              cases hrest : (compileSources o dest rest : StateM Disk _) first with
              | mk result last =>
                  rw [hrest] at h
                  cases result with
                  | error e => cases h
                  | ok others =>
                      cases h
                      obtain ⟨turns, hturns⟩ := Workshop.run_alone d ended (compileSource o dest s)
                        (rest.map fun s => compileSource o dest s)
                      obtain ⟨schedule, hschedule⟩ := ih (ended ++ [.done (.ok outcome)]) hrest
                      refine ⟨turns ++ schedule, ?_⟩
                      rw [run_compileSource, hfirst] at hturns
                      rw [List.append_assoc, List.append_assoc] at hschedule
                      rw [Workshop.run_append, List.map_cons, hturns]
                      exact hschedule

end Sequence

end Respell
