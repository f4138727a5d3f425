import Respell.Storage.Disk

/-!
# Workers that share a disk

A program over a storage is a script: it asks for one operation, and goes on with the answer. Several
workers, each with a script of its own, share one disk; a schedule says whose turn it is, and each turn is
one operation. Nothing is said about the schedule, so what holds of all schedules holds of all orders in
which the operations of the workers can fall.
-/

namespace Respell

/-- A program that asks a storage for operations and ends with a result. -/
inductive Script (α : Type) where
  | done (result : α)
  | walk (p : Path) (next : Except Failure (List (List String)) → Script α)
  | readText (p : Path) (next : Except StorageError String → Script α)
  | createDirs (p : Path) (next : Except StorageError Unit → Script α)
  | writeText (p : Path) (text : String) (next : Except StorageError Unit → Script α)

namespace Script

variable {α β : Type}

/-- Goes on with another script from the result. -/
def bind : Script α → (α → Script β) → Script β
  | done a, f => f a
  | walk p next, f => walk p fun r => (next r).bind f
  | readText p next, f => readText p fun r => (next r).bind f
  | createDirs p next, f => createDirs p fun r => (next r).bind f
  | writeText p text next, f => writeText p text fun r => (next r).bind f

instance : Monad Script where
  pure := done
  bind := bind

instance : Storage Script where
  walk p := walk p done
  readText p := readText p done
  createDirs p := createDirs p done
  writeText p text := writeText p text done

/-- The result of a script that has ended. -/
def result? : Script α → Option α
  | done a => some a
  | _ => none

/-- Has the next operation done on a disk. -/
def step (d : Disk) : Script α → Script α × Disk
  | done a => (done a, d)
  | walk p next => Prod.map next id ((Storage.walk p : StateM Disk _).run d)
  | readText p next => Prod.map next id ((Storage.readText p : StateM Disk _).run d)
  | createDirs p next => Prod.map next id ((Storage.createDirs p : StateM Disk _).run d)
  | writeText p text next => Prod.map next id ((Storage.writeText p text : StateM Disk _).run d)

theorem step_readText (d : Disk) (p : Path) (next : Except StorageError String → Script α) :
    (readText p next).step d = (next (d.read p), d) := rfl

theorem step_createDirs (d : Disk) (p : Path) (next : Except StorageError Unit → Script α) :
    (createDirs p next).step d = (next (d.makeDirs p).2, (d.makeDirs p).1) := rfl

theorem step_writeText_ok {d e : Disk} {p : Path} {text : String} (h : d.write p text.toUTF8 = .ok e)
    (next : Except StorageError Unit → Script α) : (writeText p text next).step d = (next (.ok ()), e) := by
  simp only [step, Storage.writeText, StateT.run, h]
  rfl

theorem step_writeText_error {d : Disk} {p : Path} {text : String} {e : StorageError}
    (h : d.write p text.toUTF8 = .error e) (next : Except StorageError Unit → Script α) :
    (writeText p text next).step d = (next (.error e), d) := by
  simp only [step, Storage.writeText, StateT.run, h]
  rfl

/-- Has all operations done on a disk. -/
def run : Script α → StateM Disk α
  | done a => pure a
  | walk p next => Storage.walk p >>= fun r => (next r).run
  | readText p next => Storage.readText p >>= fun r => (next r).run
  | createDirs p next => Storage.createDirs p >>= fun r => (next r).run
  | writeText p text next => Storage.writeText p text >>= fun r => (next r).run

theorem run_readText (p : Path) : (Storage.readText p : Script _).run = Storage.readText p := rfl

theorem run_writeText (p : Path) (text : String) :
    (Storage.writeText p text : Script _).run = Storage.writeText p text := rfl

theorem run_bind (s : Script α) (f : α → Script β) : (s >>= f).run = s.run >>= fun a => (f a).run := by
  change (s.bind f).run = _
  induction s with
  | done a => rfl
  | walk p next ih =>
      simp only [bind, run, ih, bind_assoc]
  | readText p next ih =>
      simp only [bind, run, ih, bind_assoc]
  | createDirs p next ih =>
      simp only [bind, run, ih, bind_assoc]
  | writeText p text next ih =>
      simp only [bind, run, ih, bind_assoc]

/-- One operation, and then all the others, are all of them. -/
theorem run_step (s : Script α) (d : Disk) : (s.step d).1.run (s.step d).2 = s.run d := by
  cases s with
  | done a => rfl
  | walk p next => rfl
  | readText p next => rfl
  | createDirs p next => rfl
  | writeText p text next => rfl

/-- Whatever the storage answers, the script ends after so many operations at most, and in this way. -/
inductive Ends (P : α → Prop) : Nat → Script α → Prop
  | done {n : Nat} {a : α} (h : P a) : Ends P n (done a)
  | walk {n : Nat} {p next} (h : ∀ r, Ends P n (next r)) : Ends P (n + 1) (walk p next)
  | readText {n : Nat} {p next} (h : ∀ r, Ends P n (next r)) : Ends P (n + 1) (readText p next)
  | createDirs {n : Nat} {p next} (h : ∀ r, Ends P n (next r)) : Ends P (n + 1) (createDirs p next)
  | writeText {n : Nat} {p text next} (h : ∀ r, Ends P n (next r)) : Ends P (n + 1) (writeText p text next)

section Endings

variable {P : α → Prop} {n : Nat} {s : Script α}

theorem Ends.succ (h : s.Ends P n) : s.Ends P (n + 1) := by
  induction h with
  | done h => exact .done h
  | walk h ih => exact .walk ih
  | readText h ih => exact .readText ih
  | createDirs h ih => exact .createDirs ih
  | writeText h ih => exact .writeText ih

theorem Ends.mono {m : Nat} (h : s.Ends P m) (hle : m ≤ n) : s.Ends P n := by
  induction hle with
  | refl => exact h
  | step _ ih => exact ih.succ

/-- An operation is one fewer to come. -/
theorem Ends.step (h : s.Ends P (n + 1)) (d : Disk) : (s.step d).1.Ends P n := by
  cases h with
  | done h => exact .done h
  | walk h => exact h _
  | readText h => exact h _
  | createDirs h => exact h _
  | writeText h => exact h _

theorem Ends.result (h : s.Ends P 0) : ∃ a, s.result? = some a := by
  cases h with
  | done h => exact ⟨_, rfl⟩

theorem Ends.run (h : s.Ends P n) (d : Disk) : P (s.run d).1 := by
  induction h generalizing d with
  | done h => exact h
  | walk h ih => exact ih _ _
  | readText h ih => exact ih _ _
  | createDirs h ih => exact ih _ _
  | writeText h ih => exact ih _ _

end Endings

end Script

/-! ## Workers -/

/-- Workers that share a disk. -/
structure Workshop (α : Type) where
  disk : Disk
  workers : List (Script α)

namespace Workshop

variable {α : Type}

/-- One worker has its next operation done. -/
def perform (w : Workshop α) (i : Nat) : Workshop α :=
  match w.workers[i]? with
  | none => w
  | some s => ⟨(s.step w.disk).2, w.workers.set i (s.step w.disk).1⟩

/-- Operations are done in the order of a schedule, which names a worker for each of them. -/
def run (w : Workshop α) (schedule : List Nat) : Workshop α := schedule.foldl perform w

/-- The results of all workers, once each has ended. -/
def results? (w : Workshop α) : Option (List α) := w.workers.mapM Script.result?

theorem run_append (w : Workshop α) (as bs : List Nat) : w.run (as ++ bs) = (w.run as).run bs :=
  List.foldl_append

/-- What every turn keeps holds under every schedule. -/
theorem invariant {P : Workshop α → Prop} {w : Workshop α} (hstart : P w)
    (hturn : ∀ w i s, P w → w.workers[i]? = some s →
      P ⟨(s.step w.disk).2, w.workers.set i (s.step w.disk).1⟩)
    (schedule : List Nat) : P (w.run schedule) := by
  induction schedule generalizing w with
  | nil => exact hstart
  | cons i schedule ih =>
      refine ih (w := w.perform i) ?_
      unfold perform
      split
      · exact hstart
      · next s hs => exact hturn w i s hstart hs

/-- Workers that have ended, by their results. -/
theorem workers_eq {w : Workshop α} {results : List α} (h : w.results? = some results) :
    w.workers = results.map .done := by
  unfold results? at h
  generalize w.workers = workers at h
  induction workers generalizing results with
  | nil =>
      cases h
      rfl
  | cons s workers ih =>
      rw [List.mapM_cons] at h
      obtain ⟨result, hresult, h⟩ := Option.bind_eq_some_iff.mp h
      obtain ⟨others, hothers, h⟩ := Option.bind_eq_some_iff.mp h
      cases h
      cases s with
      | done a =>
          cases hresult
          rw [List.map_cons, ih hothers]
      | walk p next => cases hresult
      | readText p next => cases hresult
      | createDirs p next => cases hresult
      | writeText p text next => cases hresult

theorem results?_of_ended {w : Workshop α} (h : ∀ s ∈ w.workers, ∃ a, s.result? = some a) :
    ∃ results, w.results? = some results := by
  unfold results?
  generalize w.workers = workers at h
  induction workers with
  | nil => exact ⟨[], rfl⟩
  | cons s workers ih =>
      obtain ⟨⟨a, ha⟩, hrest⟩ := List.forall_mem_cons.mp h
      obtain ⟨results, hresults⟩ := ih hrest
      refine ⟨a :: results, ?_⟩
      rw [List.mapM_cons, ha, hresults]
      rfl

/-- Workers end if the schedule gives each as many turns as it needs. -/
theorem results?_of_turns {P : α → Prop} {w : Workshop α} {schedule : List Nat}
    (h : ∀ (i : Nat) s, w.workers[i]? = some s → s.Ends P (schedule.count i)) :
    ∃ results, (w.run schedule).results? = some results := by
  induction schedule generalizing w with
  | nil =>
      refine results?_of_ended fun s hs => ?_
      obtain ⟨i, hi⟩ := List.getElem?_of_mem hs
      exact (h i s hi).result
  | cons i schedule ih =>
      refine ih (w := w.perform i) fun j s hs => ?_
      unfold perform at hs
      by_cases hij : i = j
      · subst hij
        cases hold : w.workers[i]? with
        | none =>
            rw [hold] at hs
            cases hold.symm.trans hs
        | some s₀ =>
            rw [hold] at hs
            obtain ⟨hi, _⟩ := List.getElem?_eq_some_iff.mp hold
            cases (List.getElem?_set_self hi).symm.trans hs
            have hturns := h i s₀ hold
            rw [List.count_cons_self] at hturns
            exact hturns.step w.disk
      · have hsame : w.workers[j]? = some s := by
          cases hold : w.workers[i]? with
          | none =>
              rw [hold] at hs
              exact hs
          | some s₀ =>
              rw [hold] at hs
              rwa [List.getElem?_set_ne hij] at hs
        have hturns := h j s hsame
        rwa [List.count_cons_of_ne hij] at hturns

theorem perform_middle (d : Disk) (before : List (Script α)) (s : Script α) (after : List (Script α)) :
    (⟨d, before ++ s :: after⟩ : Workshop α).perform before.length =
      ⟨(s.step d).2, before ++ (s.step d).1 :: after⟩ := by
  unfold perform
  simp

/-- A schedule may let one worker come to its end while the others wait. -/
theorem run_alone (d : Disk) (before : List (Script α)) (s : Script α) (after : List (Script α)) :
    ∃ schedule, (⟨d, before ++ s :: after⟩ : Workshop α).run schedule =
      ⟨(s.run d).2, before ++ .done (s.run d).1 :: after⟩ := by
  -- One turn for each operation that is still to come.
  have hturn : ∀ {s : Script α} {d : Disk},
      (∃ schedule, (⟨(s.step d).2, before ++ (s.step d).1 :: after⟩ : Workshop α).run schedule =
        ⟨((s.step d).1.run (s.step d).2).2, before ++ .done ((s.step d).1.run (s.step d).2).1 :: after⟩) →
      ∃ schedule, (⟨d, before ++ s :: after⟩ : Workshop α).run schedule =
        ⟨(s.run d).2, before ++ .done (s.run d).1 :: after⟩ := by
    rintro s d ⟨schedule, hschedule⟩
    rw [Script.run_step] at hschedule
    refine ⟨before.length :: schedule, ?_⟩
    rw [← hschedule, ← perform_middle]
    rfl
  induction s generalizing d with
  | done a => exact ⟨[], rfl⟩
  | walk p next ih => exact hturn (ih _ _)
  | readText p next ih => exact hturn (ih _ _)
  | createDirs p next ih => exact hturn (ih _ _)
  | writeText p text next ih => exact hturn (ih _ _)

end Workshop

end Respell
