import Respell.Proofs.Project.Worker

/-!
# Workers taking turns

The workers of a batch share the disk. What one turn can do is said once: it makes directories, or it
writes one output where the target of its source leads. From this it follows that at any time, and under any
schedule, only targets have changed, that no source has, and that an output that was written is still
there, because no two sources have one target.
-/

namespace Respell

open Disk Worker

/-! ## Sources and what becomes of them -/

/-- The text of the file at a location. -/
def Disk.text? (d : Disk) (l : Location) : Option String := (d.bytes? l).bind String.fromUTF8?

theorem Disk.read_ok {d : Disk} {p : Path} {text : String} (h : d.read p = .ok text) :
    ∃ l, d.resolve p = .ok l ∧ d.text? l = some text := by
  unfold Disk.read at h
  cases hresolve : d.resolve p with
  | error e =>
      rw [hresolve] at h
      cases h
  | ok l =>
      rw [hresolve] at h
      refine ⟨l, rfl, ?_⟩
      unfold Disk.text?
      simp only [bind, Except.bind] at h
      split at h
      · cases h
      · next bytes hbytes =>
          rw [hbytes, Option.bind_some]
          split at h
          · next text' htext =>
              cases h
              exact htext
          · cases h

/-- A directory that is compiled, with the disk as it was before. -/
structure Batch where
  options : Options
  dir : Path
  dest : Path
  disk : Disk
  /-- Where the directory is. -/
  root : Location
  /-- The names that lead to the sources. -/
  found : List (List String)

namespace Batch

variable (b : Batch) (names : List String)

def source : Source := Source.ofNames b.dir names

/-- Where the output of a source goes. -/
def target? : Option Path := b.options.target? b.dest (b.source names)

/-- What a source compiles to, if it is a text. -/
def compiled? : Option (Except Diagnostic String) :=
  (b.disk.text? (b.root ++ names)).map (Engine.compile (b.source names).path.text)

/-- What becomes of a source. -/
def outcome? : Option Outcome :=
  match b.compiled? names with
  | some (.ok _) => (b.target? names).map .written
  | some (.error diagnostic) => some (.refused diagnostic)
  | none => none

theorem outcome?_of_ok {b : Batch} {names : List String} {output : String} {target : Path}
    (h : b.compiled? names = some (.ok output)) (ht : b.target? names = some target) :
    b.outcome? names = some (.written target) := by
  rw [outcome?, h, ht]
  rfl

theorem outcome?_of_error {b : Batch} {names : List String} {diagnostic : Diagnostic}
    (h : b.compiled? names = some (.error diagnostic)) : b.outcome? names = some (.refused diagnostic) := by
  rw [outcome?, h]

/-- A source is written if it compiles, and refused if it does not. -/
theorem outcome?_cases {b : Batch} {names : List String} {outcome : Outcome}
    (h : b.outcome? names = some outcome) :
    (∃ output target, b.compiled? names = some (.ok output) ∧ b.target? names = some target ∧
      outcome = .written target) ∨
    ∃ diagnostic, b.compiled? names = some (.error diagnostic) ∧ outcome = .refused diagnostic := by
  unfold outcome? at h
  split at h
  · next output hcompiled =>
      obtain ⟨target, htarget, houtcome⟩ := Option.map_eq_some_iff.mp h
      exact .inl ⟨output, target, hcompiled, htarget, houtcome.symm⟩
  · next diagnostic hcompiled => exact .inr ⟨diagnostic, hcompiled, (Option.some.inj h).symm⟩
  · cases h

end Batch

/-! ## One turn -/

/-- How far a worker has come with its source. -/
inductive Progress (b : Batch) (names : List String) : Script Ending → Prop
  | waiting : Progress b names (compileSource b.options b.dest (b.source names))
  | placing {target : Path} {output : String} (hcompiled : b.compiled? names = some (.ok output))
      (htarget : b.target? names = some target) : Progress b names (placing target output)
  | writing {target : Path} {output : String} (hcompiled : b.compiled? names = some (.ok output))
      (htarget : b.target? names = some target) : Progress b names (writing target output)
  | ended {outcome : Outcome} (h : b.outcome? names = some outcome) : Progress b names (.done (.ok outcome))
  | failed (f : Failure) : Progress b names (.done (.error (.io f)))

/-- A worker ends with what becomes of its source, unless the storage fails. -/
theorem Progress.ending_cases {b : Batch} {names : List String} {s : Script Ending} {ending : Ending}
    (h : Progress b names s) (hs : s = .done ending) :
    (∃ outcome, ending = .ok outcome ∧ b.outcome? names = some outcome) ∨ ∃ f, ending = .error (.io f) := by
  cases h with
  | waiting =>
      rw [compileSource_eq] at hs
      cases hs
  | placing => exact absurd hs (placing_ne_done _ _ _)
  | writing => cases hs
  | ended h =>
      cases hs
      exact .inl ⟨_, rfl, h⟩
  | failed f =>
      cases hs
      exact .inr ⟨f, rfl⟩

/-- What one turn of a worker can do: nothing, as it has ended; or no more to the disk than to make
    directories; or to write the output, which is the last thing it does. -/
inductive Turn (b : Batch) (names : List String) (d : Disk) (s : Script Ending) : Script Ending → Disk → Prop
  | idle : Turn b names d s s d
  | onward {s' : Script Ending} {e : Disk} (hrunning : s.result? = none) (hgrown : Grown d e)
      (hprogress : Progress b names s') (hunwritten : ∀ target, s' ≠ .done (.ok (.written target))) :
      Turn b names d s s' e
  | wrote {target : Path} {output : String} {l : Location} (hrunning : s.result? = none)
      (hcompiled : b.compiled? names = some (.ok output)) (htarget : b.target? names = some target)
      (hfile : d.isDir l = false) (hresolve : (d.put l output.toUTF8).resolve target = .ok l) :
      Turn b names d s (.done (.ok (.written target))) (d.put l output.toUTF8)

section Turns

variable {b : Batch} {names : List String} {d : Disk} {s : Script Ending} {target : Path} {output : String}

/-- The turn that a worker with this script takes. -/
abbrev Takes (b : Batch) (names : List String) (d : Disk) (s : Script Ending) : Prop :=
  Turn b names d s (s.step d).1 (s.step d).2

theorem takes_writing (hcompiled : b.compiled? names = some (.ok output))
    (htarget : b.target? names = some target) : Takes b names d (writing target output) := by
  unfold Takes writing
  cases hwrite : d.write target output.toUTF8 with
  | error e =>
      rw [Script.step_writeText_error hwrite]
      exact .onward rfl (.refl d) (.failed _) fun _ h => by cases h
  | ok e =>
      obtain ⟨l, rfl, hfile, hresolve⟩ := write_ok hwrite
      rw [Script.step_writeText_ok hwrite]
      exact .wrote rfl hcompiled htarget hfile hresolve

theorem takes_placing (hcompiled : b.compiled? names = some (.ok output))
    (htarget : b.target? names = some target) : Takes b names d (placing target output) := by
  unfold placing
  cases target.parent? with
  | none => exact takes_writing hcompiled htarget
  | some parent =>
      unfold Takes
      rw [Script.step_createDirs]
      dsimp only
      have hgrown := makeDirs_grown d parent
      cases (d.makeDirs parent).2 with
      | error e => exact .onward rfl hgrown (.failed _) fun _ h => by cases h
      | ok u => exact .onward rfl hgrown (.writing hcompiled htarget) fun _ h => by cases h

/-- What a worker does in one turn, if what it reads is the source as it was before. -/
theorem Progress.takes (hslash : '/' ∉ b.options.outExtension)
    (hread : ∀ text, d.read (b.source names).path = .ok text →
      b.compiled? names = some (Engine.compile (b.source names).path.text text))
    (h : Progress b names s) : Takes b names d s := by
  cases h with
  | waiting =>
      unfold Takes
      rw [compileSource_eq, Script.step_readText]
      cases hsource : d.read (b.source names).path with
      | error e => exact .onward rfl (.refl d) (.failed _) fun _ h => by cases h
      | ok text =>
          have hcompiled := hread text hsource
          unfold translating
          dsimp only
          cases hcompile : Engine.compile (b.source names).path.text text with
          | error diagnostic =>
              rw [hcompile] at hcompiled
              exact .onward rfl (.refl d) (.ended (Batch.outcome?_of_error hcompiled)) fun _ h => by cases h
          | ok output =>
              rw [hcompile] at hcompiled
              obtain ⟨target, htarget⟩ := target?_of_slash_notMem b.options b.dest (b.source names) hslash
              dsimp only
              rw [htarget]
              exact .onward rfl (.refl d) (.placing hcompiled htarget) fun _ => placing_ne_done target output _
  | placing hcompiled htarget => exact takes_placing hcompiled htarget
  | writing hcompiled htarget => exact takes_writing hcompiled htarget
  | ended h => exact .idle
  | failed f => exact .idle

end Turns

/-! ## Every schedule -/

/-- What a batch starts from. -/
structure Batch.Ready (b : Batch) : Prop where
  wellFormed : b.disk.WellFormed
  resolved : b.disk.resolve b.dir = .ok b.root
  discovered : Discovered b.options b.disk b.root b.found
  slash_notMem : '/' ∉ b.options.outExtension
  /-- No target is where a source is. -/
  apart : ∀ names ∈ b.found, ∀ names' ∈ b.found, ∀ target,
    b.target? names = some target → b.disk.locate target ≠ b.root ++ names'

/-- The worker for these names has written its output. -/
structure Batch.HasWritten (b : Batch) (w : Workshop Ending) (i : Nat) (names : List String)
    (target : Path) : Prop where
  found : b.found[i]? = some names
  ended : w.workers[i]? = some (.done (.ok (.written target)))

/-- What holds of the workers of a batch and their disk at any time. -/
structure Batch.Sound (b : Batch) (w : Workshop Ending) : Prop where
  tidy : w.disk.Tidy
  still : Extends b.disk w.disk
  length_eq : w.workers.length = b.found.length
  progress : ∀ (i : Nat) names s, b.found[i]? = some names → w.workers[i]? = some s → Progress b names s
  /-- An output that has been written is where its target leads. -/
  written : ∀ i names target, b.HasWritten w i names target → ∃ output l,
    b.compiled? names = some (.ok output) ∧ b.target? names = some target ∧
      w.disk.resolve target = .ok l ∧ w.disk.bytes? l = some output.toUTF8
  /-- Where a file has changed, an output has been written. -/
  changed : ∀ l, w.disk.bytes? l ≠ b.disk.bytes? l →
    ∃ i names target, b.HasWritten w i names target ∧ w.disk.resolve target = .ok l

namespace Batch

variable {b : Batch} {w : Workshop Ending} {names : List String}

/-- The workers of a batch before they begin. -/
def workshop (b : Batch) : Workshop Ending :=
  ⟨b.disk, b.found.map fun names => compileSource b.options b.dest (b.source names)⟩

theorem Ready.locate_source (hb : b.Ready) (hnames : names ∈ b.found) :
    b.disk.locate (b.source names).path = b.root ++ names := by
  have hsource := ((hb.discovered.mem_iff names).mp hnames).1
  have hproper : ∀ n ∈ names, Path.Proper n.toList :=
    fun n hn => hb.wellFormed.names_proper _ hsource n (List.mem_append_right _ hn)
  rw [source, locate_ofNames _ _ hproper, ← resolve_locate hb.resolved]

/-- No source changes. -/
theorem Sound.source_kept (h : b.Sound w) (hb : b.Ready) (hnames : names ∈ b.found) :
    w.disk.bytes? (b.root ++ names) = b.disk.bytes? (b.root ++ names) := by
  refine Classical.byContradiction fun hne => ?_
  obtain ⟨i, names', target, hwritten, hresolve⟩ := h.changed _ hne
  obtain ⟨_, _, _, htarget, _⟩ := h.written i names' target hwritten
  refine hb.apart names' (List.mem_of_getElem? hwritten.found) names hnames target htarget ?_
  rw [← h.still.locate, ← resolve_locate hresolve]

/-- What is read of a source at any time is what it was before. -/
theorem Sound.compiled?_of_read (h : b.Sound w) (hb : b.Ready) (hnames : names ∈ b.found) {text : String}
    (hread : w.disk.read (b.source names).path = .ok text) :
    b.compiled? names = some (Engine.compile (b.source names).path.text text) := by
  obtain ⟨l, hresolve, htext⟩ := read_ok hread
  have hl : l = b.root ++ names := by
    rw [resolve_locate hresolve, h.still.locate, hb.locate_source hnames]
  rw [hl, text?, h.source_kept hb hnames] at htext
  rw [compiled?, text?, htext]
  rfl

theorem Ready.sound_workshop (hb : b.Ready) : b.Sound b.workshop where
  tidy := hb.wellFormed.toTidy
  still := .refl _
  length_eq := List.length_map _
  progress i names s hi hs := by
    rw [workshop, List.getElem?_map, hi] at hs
    cases hs
    exact .waiting
  written i names target h := by
    have hended := h.ended
    rw [workshop, List.getElem?_map, h.found, Option.map_some, compileSource_eq] at hended
    cases hended
  changed l hne := absurd rfl hne

/-! ### What a turn keeps -/

section Turns

variable {i j : Nat} {s s' : Script Ending} {e : Disk} {names' : List String} {target : Path}

/-- Another worker stands as it stood. -/
theorem HasWritten.of_set (hne : i ≠ j) (h : b.HasWritten ⟨e, w.workers.set i s'⟩ j names target) :
    b.HasWritten w j names target :=
  ⟨h.found, by rw [← h.ended, List.getElem?_set_ne hne]⟩

theorem HasWritten.set (hs : w.workers[i]? = some s) (hrunning : s.result? = none)
    (h : b.HasWritten w j names target) : b.HasWritten ⟨e, w.workers.set i s'⟩ j names target := by
  have hne : i ≠ j := by
    rintro rfl
    cases hs.symm.trans h.ended
    cases hrunning
  exact ⟨h.found, by rw [← h.ended, List.getElem?_set_ne hne]⟩

theorem Sound.found_of_worker (h : b.Sound w) (hs : w.workers[i]? = some s) :
    ∃ names, b.found[i]? = some names := by
  obtain ⟨hi, _⟩ := List.getElem?_eq_some_iff.mp hs
  rw [h.length_eq] at hi
  exact ⟨_, List.getElem?_eq_getElem hi⟩

theorem Sound.getElem?_set_self (h : b.Sound w) (hnames : b.found[i]? = some names) :
    (w.workers.set i s')[i]? = some s' := by
  obtain ⟨hi, _⟩ := List.getElem?_eq_some_iff.mp hnames
  exact List.getElem?_set_self (by rw [h.length_eq]; exact hi)

theorem Sound.progress_set (h : b.Sound w) (hnames : b.found[i]? = some names)
    (hprogress : Progress b names s') :
    ∀ (j : Nat) names' s'', b.found[j]? = some names' → (w.workers.set i s')[j]? = some s'' →
      Progress b names' s'' := by
  intro j names' s'' hnames' hs''
  by_cases hij : i = j
  · subst hij
    cases hnames.symm.trans hnames'
    cases (h.getElem?_set_self hnames).symm.trans hs''
    exact hprogress
  · rw [List.getElem?_set_ne hij] at hs''
    exact h.progress j names' s'' hnames' hs''

/-- A turn in which no file changes. -/
theorem Sound.onward (h : b.Sound w) (hnames : b.found[i]? = some names) (hs : w.workers[i]? = some s)
    (hrunning : s.result? = none) (hgrown : Grown w.disk e) (hprogress : Progress b names s')
    (hunwritten : ∀ target, s' ≠ .done (.ok (.written target))) : b.Sound ⟨e, w.workers.set i s'⟩ where
  tidy := hgrown.tidy h.tidy
  still := h.still.trans hgrown.still
  length_eq := by rw [List.length_set, h.length_eq]
  progress := h.progress_set hnames hprogress
  written j names' target hwritten := by
    have hij : i ≠ j := by
      rintro rfl
      exact hunwritten target (Option.some.inj ((h.getElem?_set_self hnames).symm.trans hwritten.ended))
    obtain ⟨output, l, hcompiled, htarget, hresolve, hbytes⟩ := h.written j names' target (hwritten.of_set hij)
    exact ⟨output, l, hcompiled, htarget, hgrown.still.resolve hresolve, by rw [hgrown.bytes?, hbytes]⟩
  changed l hne := by
    rw [hgrown.bytes?] at hne
    obtain ⟨j, names', target, hwritten, hresolve⟩ := h.changed l hne
    exact ⟨j, names', target, hwritten.set hs hrunning, hgrown.still.resolve hresolve⟩

/-- A turn in which an output is written. No other output is there, since no two sources have one
    target. -/
theorem Sound.wrote (h : b.Sound w) (hb : b.Ready) (hnames : b.found[i]? = some names)
    (hs : w.workers[i]? = some s) (hrunning : s.result? = none) {output : String} {l : Location}
    (hcompiled : b.compiled? names = some (.ok output)) (htarget : b.target? names = some target)
    (hfile : w.disk.isDir l = false) (hresolve : (w.disk.put l output.toUTF8).resolve target = .ok l) :
    b.Sound ⟨w.disk.put l output.toUTF8, w.workers.set i (.done (.ok (.written target)))⟩ := by
  have hextends := extends_put w.disk l output.toUTF8
  have htidy : (w.disk.put l output.toUTF8).Tidy := h.tidy.put hfile _
  have hself : b.HasWritten ⟨w.disk.put l output.toUTF8, w.workers.set i (.done (.ok (.written target)))⟩
      i names target := ⟨hnames, h.getElem?_set_self hnames⟩
  refine ⟨htidy, h.still.trans hextends, by rw [List.length_set, h.length_eq], ?_, ?_, ?_⟩
  · exact h.progress_set hnames (.ended (outcome?_of_ok hcompiled htarget))
  · intro j names' target' hwritten
    by_cases hij : i = j
    · subst hij
      cases hnames.symm.trans hwritten.found
      cases hself.ended.symm.trans hwritten.ended
      exact ⟨output, l, hcompiled, htarget, hresolve, bytes?_put_self _ _ _⟩
    · obtain ⟨output', l', hcompiled', htarget', hresolve', hbytes'⟩ :=
        h.written j names' target' (hwritten.of_set hij)
      have hresolved := hextends.resolve hresolve'
      refine ⟨output', l', hcompiled', htarget', hresolved, ?_⟩
      rw [bytes?_put_of_ne, hbytes']
      rintro rfl
      have heq := hb.discovered.target_injective hb.wellFormed htidy hb.slash_notMem
        (List.mem_of_getElem? hnames) (List.mem_of_getElem? hwritten.found) htarget htarget' hresolve hresolved hfile
      obtain ⟨hlt, _⟩ := List.getElem?_eq_some_iff.mp hnames
      exact hij ((List.getElem?_inj hlt hb.discovered.once).mp (by rw [hnames, hwritten.found, heq]))
  · intro k hne
    by_cases hk : k = l
    · subst hk
      exact ⟨i, names, target, hself, hresolve⟩
    · rw [bytes?_put_of_ne _ _ hk] at hne
      obtain ⟨j, names', target', hwritten, hresolve'⟩ := h.changed k hne
      exact ⟨j, names', target', hwritten.set hs hrunning, hextends.resolve hresolve'⟩

/-- Every turn keeps what holds at any time. -/
theorem Sound.turn (h : b.Sound w) (hb : b.Ready) (hs : w.workers[i]? = some s) :
    b.Sound ⟨(s.step w.disk).2, w.workers.set i (s.step w.disk).1⟩ := by
  obtain ⟨names, hnames⟩ := h.found_of_worker hs
  have hturn : Turn b names w.disk s (s.step w.disk).1 (s.step w.disk).2 :=
    (h.progress i names s hnames hs).takes hb.slash_notMem fun _ =>
      h.compiled?_of_read hb (List.mem_of_getElem? hnames)
  generalize (s.step w.disk).1 = s', (s.step w.disk).2 = e at hturn
  cases hturn with
  | idle =>
      obtain ⟨hi, heq⟩ := List.getElem?_eq_some_iff.mp hs
      rw [← heq, List.set_getElem_self]
      exact h
  | onward hrunning hgrown hprogress hunwritten => exact h.onward hnames hs hrunning hgrown hprogress hunwritten
  | wrote hrunning hcompiled htarget hfile hresolve =>
      exact h.wrote hb hnames hs hrunning hcompiled htarget hfile hresolve

/-- It holds under every schedule. -/
theorem Ready.sound_run (hb : b.Ready) (schedule : List Nat) : b.Sound (b.workshop.run schedule) :=
  Workshop.invariant hb.sound_workshop (fun _ _ _ h hs => h.turn hb hs) schedule

end Turns

end Batch

end Respell
