import Respell.Proofs.Project.Turns
import Respell.Proofs.Text.ByteOrder

/-!
# Compiling a directory in any order

All sources under a directory are compiled by workers whose operations fall in any order. If no storage
fails, the sources are parted: the output of each one that compiles is where its target leads, each one
that does not is told of once and its target is left alone, and no other file changes. The targets are
told in the order of the search, or the diagnostics in the order of reports.
-/

namespace Respell

open Disk

/-! ## What is told -/

/-- The order of reports: by the bytes of the names of files, then by where a span starts. -/
def Diagnostic.InOrder (x y : Diagnostic) : Prop :=
  x.file.toByteArray.data.toList < y.file.toByteArray.data.toList ∨
    x.file = y.file ∧ x.span.start ≤ y.span.start

namespace Diagnostic

theorem precedes_iff {x y : Diagnostic} :
    x.precedes y = true ↔ x.file < y.file ∨ x.file = y.file ∧ x.span.start ≤ y.span.start := by
  simp [precedes]

theorem precedes_trans (x y z : Diagnostic) (h₁ : x.precedes y = true) (h₂ : y.precedes z = true) :
    x.precedes z = true := by
  rw [precedes_iff] at h₁ h₂ ⊢
  rcases h₁ with h₁ | ⟨hfile₁, hstart₁⟩
  · rcases h₂ with h₂ | ⟨hfile₂, _⟩
    · exact .inl (String.lt_trans h₁ h₂)
    · exact .inl (hfile₂ ▸ h₁)
  · rcases h₂ with h₂ | ⟨hfile₂, hstart₂⟩
    · exact .inl (hfile₁ ▸ h₂)
    · exact .inr ⟨hfile₁.trans hfile₂, Nat.le_trans hstart₁ hstart₂⟩

theorem precedes_total (x y : Diagnostic) : (x.precedes y || y.precedes x) = true := by
  rw [Bool.or_eq_true, precedes_iff, precedes_iff]
  by_cases hlt : x.file < y.file
  · exact .inl (.inl hlt)
  by_cases hgt : y.file < x.file
  · exact .inr (.inl hgt)
  have heq : x.file = y.file := String.le_antisymm (String.not_lt.mp hgt) (String.not_lt.mp hlt)
  rcases Nat.le_total x.span.start y.span.start with hle | hle
  · exact .inl (.inr ⟨heq, hle⟩)
  · exact .inr (.inr ⟨heq.symm, hle⟩)

theorem sort_inOrder (ds : List Diagnostic) : (sort ds).Pairwise InOrder := by
  refine (List.pairwise_mergeSort precedes_trans precedes_total ds).imp fun h => ?_
  rcases precedes_iff.mp h with hlt | hsame
  · exact .inl (Text.bytes_lt_of_lt hlt)
  · exact .inr hsame

end Diagnostic

section Summary

variable (target : Path) (diagnostic : Diagnostic) (outcomes : List Outcome)

theorem refusals_written : refusals (.written target :: outcomes) = refusals outcomes := rfl

theorem refusals_refused :
    refusals (.refused diagnostic :: outcomes) = diagnostic :: refusals outcomes := rfl

theorem writtenTargets_written :
    writtenTargets (.written target :: outcomes) = target :: writtenTargets outcomes := rfl

end Summary

namespace Batch

/-- The diagnostic of a source that is refused. -/
def diagnostic? (b : Batch) (names : List String) : Option Diagnostic :=
  match b.compiled? names with
  | some (.error diagnostic) => some diagnostic
  | _ => none

/-- The sources of a batch are parted: those that compile are written where their targets are, those
    that do not are told of, and nothing else happens. -/
structure Partition (b : Batch) (after : Disk) (result : Except BatchError (List Path)) : Prop where
  /-- Every source is a text. -/
  texts : ∀ names ∈ b.found, (b.compiled? names).isSome = true
  /-- The target of a source that compiles holds the output. -/
  written : ∀ names ∈ b.found, ∀ output, b.compiled? names = some (.ok output) →
    ∃ target l, b.target? names = some target ∧ after.resolve target = .ok l ∧
      after.bytes? l = some output.toUTF8
  /-- The target of a source that is refused is as it was, be it there or not. -/
  kept : ∀ names ∈ b.found, ∀ diagnostic, b.compiled? names = some (.error diagnostic) →
    ∃ target, b.target? names = some target ∧
      ∀ l, b.disk.resolve target = .ok l ∨ after.resolve target = .ok l → after.bytes? l = b.disk.bytes? l
  /-- No file changes but the targets of sources that compile. -/
  others : ∀ l, (∀ names ∈ b.found, ∀ output target, b.compiled? names = some (.ok output) →
    b.target? names = some target → after.resolve target ≠ .ok l) → after.bytes? l = b.disk.bytes? l
  /-- Targets are told if every source compiles, and only then. -/
  ok_iff : (∃ targets, result = .ok targets) ↔
    ∀ names ∈ b.found, ∃ output, b.compiled? names = some (.ok output)
  /-- The targets are told in the order of the search. -/
  targets : ∀ targets, result = .ok targets → targets.map some = b.found.map b.target?
  /-- The diagnostics are told, one for each source that is refused, in the order of reports. -/
  diagnostics : ∀ e, result = .error e →
    ∃ ds, e = .refused ds ∧ ds.Perm (b.found.filterMap b.diagnostic?) ∧ ds.Pairwise Diagnostic.InOrder

section Ended

variable {b : Batch} {w : Workshop Ending} {names : List String} {outcomes : List Outcome}

theorem diagnostic?_of_ok {output : String} (h : b.compiled? names = some (.ok output)) :
    b.diagnostic? names = none := by
  rw [diagnostic?, h]

theorem diagnostic?_of_error {diagnostic : Diagnostic} (h : b.compiled? names = some (.error diagnostic)) :
    b.diagnostic? names = some diagnostic := by
  rw [diagnostic?, h]

/-- The diagnostics among the outcomes are those of the sources. -/
theorem refusals_eq {found : List (List String)} (h : outcomes.map some = found.map b.outcome?) :
    refusals outcomes = found.filterMap b.diagnostic? := by
  induction found generalizing outcomes with
  | nil =>
      rw [List.map_eq_nil_iff.mp h]
      rfl
  | cons names found ih =>
      cases outcomes with
      | nil => cases h
      | cons outcome outcomes =>
          obtain ⟨hhead, htail⟩ := List.cons.inj h
          rcases outcome?_cases hhead.symm with ⟨output, target, hcompiled, _, rfl⟩ | ⟨diagnostic, hcompiled, rfl⟩
          · rw [refusals_written, List.filterMap_cons_none (diagnostic?_of_ok hcompiled), ih htail]
          · rw [refusals_refused, List.filterMap_cons_some (diagnostic?_of_error hcompiled), ih htail]

/-- If all sources compile, the targets among the outcomes are those of the sources. -/
theorem writtenTargets_eq {found : List (List String)} (h : outcomes.map some = found.map b.outcome?)
    (hok : ∀ names ∈ found, b.diagnostic? names = none) :
    (writtenTargets outcomes).map some = found.map b.target? := by
  induction found generalizing outcomes with
  | nil =>
      rw [List.map_eq_nil_iff.mp h]
      rfl
  | cons names found ih =>
      cases outcomes with
      | nil => cases h
      | cons outcome outcomes =>
          obtain ⟨hhead, htail⟩ := List.cons.inj h
          obtain ⟨hnames, hfound⟩ := List.forall_mem_cons.mp hok
          rcases outcome?_cases hhead.symm with ⟨output, target, _, htarget, rfl⟩ | ⟨diagnostic, hcompiled, rfl⟩
          · rw [writtenTargets_written, List.map_cons, ih htail hfound, List.map_cons, htarget]
          · cases (diagnostic?_of_error hcompiled).symm.trans hnames

/-- What is told of the outcomes. -/
theorem summarize_cases (h : outcomes.map some = b.found.map b.outcome?) :
    (∃ targets, summarize outcomes = .ok targets ∧ targets.map some = b.found.map b.target? ∧
      ∀ names ∈ b.found, b.diagnostic? names = none) ∨
    ∃ ds, summarize outcomes = .error (.refused ds) ∧ ds.Perm (b.found.filterMap b.diagnostic?) ∧
      ds.Pairwise Diagnostic.InOrder ∧ b.found.filterMap b.diagnostic? ≠ [] := by
  unfold summarize
  rw [refusals_eq h]
  split
  · next hnone =>
      have hall := List.filterMap_eq_nil_iff.mp hnone
      exact .inl ⟨_, rfl, writtenTargets_eq h hall, hall⟩
  · next hsome => exact .inr ⟨_, rfl, List.mergeSort_perm _ _, Diagnostic.sort_inOrder _, hsome⟩

theorem Sound.length_outcomes (h : b.Sound w) (hworkers : w.workers = outcomes.map fun x => .done (.ok x)) :
    outcomes.length = b.found.length := by
  rw [← h.length_eq, hworkers, List.length_map]

/-- Where all workers have ended without a failure of the storage, each has its outcome. -/
theorem Sound.ended (h : b.Sound w) (hworkers : w.workers = outcomes.map fun x => .done (.ok x)) {i : Nat}
    (hnames : b.found[i]? = some names) :
    ∃ outcome, outcomes[i]? = some outcome ∧ w.workers[i]? = some (.done (.ok outcome)) ∧
      b.outcome? names = some outcome := by
  obtain ⟨hi, _⟩ := List.getElem?_eq_some_iff.mp hnames
  have hlength := h.length_outcomes hworkers
  have houtcome : outcomes[i]? = some (outcomes[i]) := List.getElem?_eq_getElem (by omega)
  have hworker : w.workers[i]? = some (.done (.ok outcomes[i])) := by
    rw [hworkers, List.getElem?_map, houtcome]
    rfl
  rcases (h.progress i names _ hnames hworker).ending_cases rfl with ⟨outcome, houtcome, heq⟩ | ⟨f, hf⟩
  · cases houtcome
    exact ⟨_, houtcome, hworker, heq⟩
  · cases hf

theorem Sound.outcomes_eq (h : b.Sound w) (hworkers : w.workers = outcomes.map fun x => .done (.ok x)) :
    outcomes.map some = b.found.map b.outcome? := by
  refine List.ext_getElem? fun i => ?_
  rw [List.getElem?_map, List.getElem?_map]
  cases hnames : b.found[i]? with
  | none =>
      have hlength := h.length_outcomes hworkers
      rw [List.getElem?_eq_none (by rw [hlength]; exact List.getElem?_eq_none_iff.mp hnames)]
      rfl
  | some names =>
      obtain ⟨outcome, houtcome, _, heq⟩ := h.ended hworkers hnames
      rw [houtcome, Option.map_some, Option.map_some, heq]

/-- Every source was a text, which either compiles or is refused. -/
theorem Sound.compiled?_cases (h : b.Sound w) (hworkers : w.workers = outcomes.map fun x => .done (.ok x))
    (hnames : names ∈ b.found) :
    (∃ output, b.compiled? names = some (.ok output)) ∨
      ∃ diagnostic, b.compiled? names = some (.error diagnostic) := by
  obtain ⟨i, hi⟩ := List.getElem?_of_mem hnames
  obtain ⟨outcome, _, _, houtcome⟩ := h.ended hworkers hi
  rcases outcome?_cases houtcome with ⟨output, _, hcompiled, _⟩ | ⟨diagnostic, hcompiled, _⟩
  · exact .inl ⟨output, hcompiled⟩
  · exact .inr ⟨diagnostic, hcompiled⟩

/-- The target of a source that compiles holds the output. -/
theorem Sound.written_of_ok (h : b.Sound w) (hworkers : w.workers = outcomes.map fun x => .done (.ok x))
    (hnames : names ∈ b.found) {output : String} (hcompiled : b.compiled? names = some (.ok output)) :
    ∃ target l, b.target? names = some target ∧ w.disk.resolve target = .ok l ∧
      w.disk.bytes? l = some output.toUTF8 := by
  obtain ⟨i, hi⟩ := List.getElem?_of_mem hnames
  obtain ⟨outcome, _, hworker, houtcome⟩ := h.ended hworkers hi
  rcases outcome?_cases houtcome with ⟨_, target, _, _, rfl⟩ | ⟨diagnostic, herror, _⟩
  · obtain ⟨output', l, hcompiled', htarget, hresolve, hbytes⟩ := h.written i names target ⟨hi, hworker⟩
    cases hcompiled.symm.trans hcompiled'
    exact ⟨target, l, htarget, hresolve, hbytes⟩
  · cases hcompiled.symm.trans herror

/-- The target of a source that is refused is no other source's, so it is as it was. -/
theorem Sound.kept_of_error (h : b.Sound w) (hb : b.Ready) (hnames : names ∈ b.found) {diagnostic : Diagnostic}
    (hcompiled : b.compiled? names = some (.error diagnostic)) {target : Path} {l : Location}
    (htarget : b.target? names = some target) (hresolve : w.disk.resolve target = .ok l) :
    w.disk.bytes? l = b.disk.bytes? l := by
  refine Classical.byContradiction fun hne => ?_
  obtain ⟨i, names', target', hwritten, hresolve'⟩ := h.changed l hne
  obtain ⟨output, l', hcompiled', htarget', hresolve'', hbytes⟩ := h.written i names' target' hwritten
  cases hresolve'.symm.trans hresolve''
  have hfile : w.disk.isDir l = false := by
    refine Bool.eq_false_iff.mpr fun hdir => ?_
    cases (h.tidy.apart l hdir).symm.trans hbytes
  have heq := hb.discovered.target_injective hb.wellFormed h.tidy hb.slash_notMem hnames
    (List.mem_of_getElem? hwritten.found) htarget htarget' hresolve hresolve' hfile
  subst heq
  cases hcompiled.symm.trans hcompiled'

/-- No file changes but the targets of sources that compile. -/
theorem Sound.bytes?_eq_of_ne (h : b.Sound w) {l : Location}
    (hl : ∀ names ∈ b.found, ∀ output target, b.compiled? names = some (.ok output) →
      b.target? names = some target → w.disk.resolve target ≠ .ok l) : w.disk.bytes? l = b.disk.bytes? l := by
  refine Classical.byContradiction fun hne => ?_
  obtain ⟨i, names, target, hwritten, hresolve⟩ := h.changed l hne
  obtain ⟨output, _, hcompiled, htarget, _⟩ := h.written i names target hwritten
  exact hl names (List.mem_of_getElem? hwritten.found) output target hcompiled htarget hresolve

/-- The targets are told if every source compiles, and only then. -/
theorem Sound.summarize_ok_iff (h : b.Sound w) (hworkers : w.workers = outcomes.map fun x => .done (.ok x)) :
    (∃ targets, summarize outcomes = .ok targets) ↔
      ∀ names ∈ b.found, ∃ output, b.compiled? names = some (.ok output) := by
  rcases summarize_cases (h.outcomes_eq hworkers) with
    ⟨targets, hresult, _, hall⟩ | ⟨ds, hresult, _, _, hsome⟩
  · refine ⟨fun _ names hnames => ?_, fun _ => ⟨targets, hresult⟩⟩
    rcases h.compiled?_cases hworkers hnames with hok | ⟨diagnostic, hcompiled⟩
    · exact hok
    · cases (diagnostic?_of_error hcompiled).symm.trans (hall names hnames)
  · refine ⟨?_, fun hok => absurd (List.filterMap_eq_nil_iff.mpr fun names hnames => ?_) hsome⟩
    · rintro ⟨targets, hok⟩
      cases hresult.symm.trans hok
    · obtain ⟨output, hcompiled⟩ := hok names hnames
      exact diagnostic?_of_ok hcompiled

/-- Once all workers have ended without a failure of the storage, the sources are parted. -/
theorem Sound.partition (h : b.Sound w) (hb : b.Ready)
    (hworkers : w.workers = outcomes.map fun x => .done (.ok x)) : b.Partition w.disk (summarize outcomes) := by
  have houtcomes := h.outcomes_eq hworkers
  refine ⟨?_, fun names hnames output => h.written_of_ok hworkers hnames, ?_,
    fun l => h.bytes?_eq_of_ne, h.summarize_ok_iff hworkers, ?_, ?_⟩
  · intro names hnames
    rcases h.compiled?_cases hworkers hnames with ⟨output, hcompiled⟩ | ⟨diagnostic, hcompiled⟩
    · rw [hcompiled]
      rfl
    · rw [hcompiled]
      rfl
  · intro names hnames diagnostic hcompiled
    obtain ⟨target, htarget⟩ := target?_of_slash_notMem b.options b.dest (b.source names) hb.slash_notMem
    refine ⟨target, htarget, fun l hl => h.kept_of_error hb hnames hcompiled htarget ?_⟩
    rcases hl with hl | hl
    · exact h.still.resolve hl
    · exact hl
  · intro targets hok
    rcases summarize_cases houtcomes with ⟨targets', hresult, htargets, _⟩ | ⟨ds, hresult, _⟩
    · cases hresult.symm.trans hok
      exact htargets
    · cases hresult.symm.trans hok
  · intro e herror
    rcases summarize_cases houtcomes with ⟨targets, hresult, _⟩ | ⟨ds, hresult, hperm, hordered, _⟩
    · cases hresult.symm.trans herror
    · cases hresult.symm.trans herror
      exact ⟨ds, rfl, hperm, hordered⟩

end Ended

end Batch

/-! ## Any order -/

/-- The result of a batch, from the endings of its workers. -/
def collect (endings : List Ending) : Except BatchError (List Path) := (endings.mapM id).bind summarize

theorem collect_ok (outcomes : List Outcome) : collect (outcomes.map .ok) = summarize outcomes := by
  have hmapM : List.mapM id (outcomes.map (.ok : Outcome → Ending)) = .ok outcomes := by
    induction outcomes with
    | nil => rfl
    | cons outcome outcomes ih =>
        rw [List.map_cons, List.mapM_cons, ih]
        rfl
  rw [collect, hmapM]
  rfl

theorem compileDir_eq {o : Options} {dir : Path} (dest : Path) {d : Disk} {sources : List Source}
    (h : (discover o dir : StateM Disk _) d = (.ok sources, d)) :
    (compileDir o dir dest : StateM Disk _) d =
      Prod.map (·.bind summarize) id ((compileSources o dest sources : StateM Disk _) d) := by
  unfold compileDir
  change StateT.bind _ _ d = _
  rw [StateT.bind, h]
  rfl

theorem exists_outcomes {endings : List Ending} (h : ∀ ending ∈ endings, ∃ outcome, ending = .ok outcome) :
    ∃ outcomes : List Outcome, endings = outcomes.map .ok := by
  induction endings with
  | nil => exact ⟨[], rfl⟩
  | cons ending endings ih =>
      obtain ⟨⟨outcome, rfl⟩, hrest⟩ := List.forall_mem_cons.mp h
      obtain ⟨outcomes, rfl⟩ := ih hrest
      exact ⟨outcome :: outcomes, rfl⟩

namespace Batch

variable {b : Batch}

/-- The workers end, if each has three turns. -/
theorem Ready.workshop_ends (hb : b.Ready) {schedule : List Nat}
    (hturns : ∀ i < b.found.length, 3 ≤ schedule.count i) :
    ∃ endings, (b.workshop.run schedule).results? = some endings := by
  refine Workshop.results?_of_turns (P := Worker.FailsByStorage) fun i s hs => ?_
  rw [workshop, List.getElem?_map] at hs
  obtain ⟨names, hnames, rfl⟩ := Option.map_eq_some_iff.mp hs
  obtain ⟨hi, _⟩ := List.getElem?_eq_some_iff.mp hnames
  exact (ends_compileSource hb.slash_notMem _ _).mono (hturns i hi)

/-- Whatever the schedule, once all workers have ended and no storage has failed, the sources are
    parted. -/
theorem Ready.partition_run (hb : b.Ready) {schedule : List Nat} {endings : List Ending}
    (hended : (b.workshop.run schedule).results? = some endings) (hio : ∀ f, .error (.io f) ∉ endings) :
    b.Partition (b.workshop.run schedule).disk (collect endings) := by
  have hsound := hb.sound_run schedule
  have hworkers := Workshop.workers_eq hended
  have hok : ∀ ending ∈ endings, ∃ outcome, ending = .ok outcome := by
    intro ending hmem
    obtain ⟨i, hi⟩ := List.getElem?_of_mem hmem
    have hworker : (b.workshop.run schedule).workers[i]? = some (.done ending) := by
      rw [hworkers, List.getElem?_map, hi]
      rfl
    obtain ⟨names, hnames⟩ := hsound.found_of_worker hworker
    rcases (hsound.progress i names _ hnames hworker).ending_cases rfl with ⟨outcome, houtcome, _⟩ | ⟨f, rfl⟩
    · exact ⟨outcome, houtcome⟩
    · exact absurd hmem (hio f)
  obtain ⟨outcomes, rfl⟩ := exists_outcomes hok
  rw [collect_ok]
  rw [List.map_map] at hworkers
  exact hsound.partition hb hworkers

/-- Compiling one source after the other parts them too, if no storage fails. -/
theorem Ready.partition_compileDir (hb : b.Ready)
    (hdiscover : (discover b.options b.dir : StateM Disk _) b.disk = (.ok (b.found.map b.source), b.disk))
    {result : Except BatchError (List Path)} {after : Disk}
    (h : (compileDir b.options b.dir b.dest : StateM Disk _) b.disk = (result, after))
    (hio : ∀ f, result ≠ .error (.io f)) : b.Partition after result := by
  rw [compileDir_eq b.dest hdiscover] at h
  cases hsources : (compileSources b.options b.dest (b.found.map b.source) : StateM Disk _) b.disk with
  | mk compiled last =>
      rw [hsources] at h
      cases compiled with
      | error e =>
          obtain ⟨f, rfl⟩ := compileSources_error hb.slash_notMem hsources
          cases h
          exact absurd rfl (hio f)
      | ok outcomes =>
          cases h
          obtain ⟨schedule, hschedule⟩ := compileSources_scheduled [] hsources
          have hrun : b.workshop.run schedule = ⟨last, outcomes.map fun x => .done (.ok x)⟩ := by
            rw [List.nil_append, List.nil_append, List.map_map] at hschedule
            exact hschedule
          have hsound := hb.sound_run schedule
          rw [hrun] at hsound
          exact hsound.partition hb rfl

end Batch

/-- However the operations of the workers fall, and also if one source is compiled after the other: the
    sources are the files with their extension; if no storage fails, those that compile have their
    output where their targets are, those that do not are told of, and no other file changes. -/
theorem compileDir_partition (o : Options) (dir dest : Path) (d : Disk) {root : Location} (hd : d.WellFormed)
    (hdir : d.resolve dir = .ok root) (hslash : '/' ∉ o.outExtension)
    (hapart : ∀ names names' target, o.IsSourceAt d (root ++ names) → o.IsSourceAt d (root ++ names') →
      o.target? dest (Source.ofNames dir names) = some target → d.locate target ≠ root ++ names') :
    ∃ found, Discovered o d root found ∧
      (discover o dir : StateM Disk _) d = (.ok (found.map (Source.ofNames dir)), d) ∧
      (∀ schedule, (∀ i < found.length, 3 ≤ schedule.count i) →
        ∃ endings, ((Batch.mk o dir dest d root found).workshop.run schedule).results? = some endings) ∧
      (∀ schedule endings,
        ((Batch.mk o dir dest d root found).workshop.run schedule).results? = some endings →
        (∀ f, .error (.io f) ∉ endings) →
        (Batch.mk o dir dest d root found).Partition
          ((Batch.mk o dir dest d root found).workshop.run schedule).disk (collect endings)) ∧
      ∀ result after, (compileDir o dir dest : StateM Disk _) d = (result, after) →
        (∀ f, result ≠ .error (.io f)) → (Batch.mk o dir dest d root found).Partition after result := by
  obtain ⟨found, hfound, hdiscover⟩ := discover_ok o hd hdir
  have hb : (Batch.mk o dir dest d root found).Ready := by
    refine ⟨hd, hdir, hfound, hslash, fun names hnames names' hnames' target => ?_⟩
    exact hapart names names' target ((hfound.mem_iff names).mp hnames) ((hfound.mem_iff names').mp hnames')
  exact ⟨found, hfound, hdiscover, fun _ => hb.workshop_ends,
    fun _ _ => hb.partition_run, fun _ _ => hb.partition_compileDir hdiscover⟩

/-! ## A directory with all kinds of files -/

/-- A source that compiles, a source that does not, and a file that is no source. -/
def mixedDisk : Disk where
  current := ["work"]
  dirs := [["work"], ["work", "src"], ["work", "src", "sub"]]
  files := [(["work", "src", "notes.txt"], "neat".toUTF8), (["work", "src", "sub", "b.neat"], "c;".toUTF8),
    (["work", "src", "a.b.neat"], "var a = 1;".toUTF8)]

/-- The directory compiled with the options that are the default. -/
def mixedBatch : Batch :=
  ⟨({} : Settings).resolve, ⟨"src"⟩, ⟨"lib"⟩, mixedDisk, ["work", "src"], [["a.b.neat"], ["sub", "b.neat"]]⟩

theorem mixedBatch_discovered :
    Discovered mixedBatch.options mixedBatch.disk mixedBatch.root mixedBatch.found := by
  refine ⟨fun names => ⟨?_, fun h => ?_⟩, by decide, by decide⟩
  · have hsources : ∀ names ∈ mixedBatch.found, (mixedDisk.bytes? (mixedBatch.root ++ names)).isSome = true ∧
        extensionAt? (mixedBatch.root ++ names) = some mixedBatch.options.extension := by decide
    exact hsources names
  · have hfiles : ∀ l ∈ mixedDisk.files.map Prod.fst, extensionAt? l = some mixedBatch.options.extension →
        ∀ names ∈ below? mixedBatch.root l, names ∈ mixedBatch.found := by decide
    exact forall_files.mpr hfiles _ h.1 h.2 names (below?_eq_some_iff.mpr rfl)

theorem compileDir_partition_mixedDisk : ∃ endings,
    (mixedBatch.workshop.run [1, 0, 0, 0]).results? = some endings ∧
      endings.map Except.toOption = [some (.written ⟨"lib/a.b.js"⟩),
        some (.refused ⟨"src/sub/b.neat", ⟨0, 1⟩, 1, "'c' has not been declared", 2002, .scope⟩)] ∧
      mixedBatch.Partition (mixedBatch.workshop.run [1, 0, 0, 0]).disk (collect endings) := by
  have hapart : ∀ names ∈ mixedBatch.found, ∀ names' ∈ mixedBatch.found, ∀ target ∈ mixedBatch.target? names,
      mixedDisk.locate target ≠ mixedBatch.root ++ names' := by decide +kernel
  obtain ⟨found, hfound, _, _, hany, _⟩ := compileDir_partition ({} : Settings).resolve ⟨"src"⟩ ⟨"lib"⟩
    mixedDisk (by decide) (by rfl) (by decide) fun names names' target hnames hnames' =>
      hapart names ((mixedBatch_discovered.mem_iff names).mpr hnames) names'
        ((mixedBatch_discovered.mem_iff names').mpr hnames') target
  cases hfound.unique mixedBatch_discovered
  have hrun : (mixedBatch.workshop.run [1, 0, 0, 0]).results?.map (·.map Except.toOption) =
      some [some (.written ⟨"lib/a.b.js"⟩),
        some (.refused ⟨"src/sub/b.neat", ⟨0, 1⟩, 1, "'c' has not been declared", 2002, .scope⟩)] := by
    decide +kernel
  obtain ⟨endings, hendings, houtcomes⟩ := Option.map_eq_some_iff.mp hrun
  refine ⟨endings, hendings, houtcomes, hany _ endings hendings fun f hf => ?_⟩
  have hnone := List.mem_map_of_mem (f := Except.toOption) hf
  rw [houtcomes] at hnone
  simp [Except.toOption] at hnone

end Respell
