import Respell.Project.Compile
import Respell.Proofs.Storage.Tree

/-!
# Sources and their targets

The files under a directory are found by the names that lead to them. The path of a source, and the
path of its target, are these names behind what a directory's path begins with, so both can be located
without looking at the disk. Since only the last name changes, and only after its stem, no two sources
have one target.
-/

namespace Respell

open Respell.Path

/-! ## Paths below a directory -/

namespace Path

@[simp] theorem chars_ofChars (cs : List Char) : (ofChars cs).chars = cs := String.toList_ofList

/-- A path whose first name is there does not start at the root. -/
theorem head?_joinSlash {w : List Char} (hw : Live w) (ws : List (List Char)) :
    (joinSlash (w :: ws)).head? ≠ some '/' := by
  have hhead : (joinSlash (w :: ws)).head? = w.head? := by
    cases ws with
    | nil => rw [joinSlash_singleton]
    | cons v vs =>
        rw [joinSlash_cons w (List.cons_ne_nil v vs), List.head?_append]
        cases w with
        | nil => exact absurd rfl hw.ne_nil
        | cons c w => rfl
  rw [hhead]
  exact fun h => hw.slash_notMem (List.mem_of_head? h)

theorem isAbsolute_joinSlash {p : Path} {ws : List (List Char)} (hne : ws ≠ []) (h : ∀ w ∈ ws, Live w)
    (hp : p.chars = joinSlash ws) : p.isAbsolute = false := by
  cases ws with
  | nil => exact absurd rfl hne
  | cons w ws =>
      rw [isAbsolute, hp]
      simpa using head?_joinSlash (h w List.mem_cons_self) ws

theorem isAbsolute_name {n : String} (hn : Live n.toList) : (⟨n⟩ : Path).isAbsolute = false :=
  isAbsolute_joinSlash (List.cons_ne_nil n.toList []) (by simpa using hn) (joinSlash_singleton _).symm

/-- The path of a directory is empty, or it is followed by a slash, which it may have already. -/
theorem opening_cases (p : Path) : (p.chars = [] ∧ p.opening = []) ∨
    ∃ bs, p.opening = bs ++ ['/'] ∧ (p.chars = bs ∧ bs ≠ [] ∨ p.chars = bs ++ ['/']) := by
  unfold opening
  rcases List.eq_nil_or_concat p.chars with hnil | ⟨bs, c, hconcat⟩
  · exact .inl ⟨hnil, by simp [hnil]⟩
  · rw [List.concat_eq_append] at hconcat
    rw [hconcat, List.getLast?_concat]
    refine .inr ?_
    by_cases hc : c = '/'
    · subst hc
      exact ⟨bs, if_pos rfl, .inr rfl⟩
    · exact ⟨bs ++ [c], if_neg (by simpa using hc), .inl ⟨rfl, by simp⟩⟩

/-- What names lead to from a directory. -/
def within (p : Path) (ws : List (List Char)) : Path := ofChars (p.opening ++ joinSlash ws)

/-- The paths in a directory begin with the directory's own path and a slash. -/
theorem opening_join (p : Path) {n : String} (hn : Live n.toList) :
    (p.join ⟨n⟩).opening = p.opening ++ (n.toList ++ ['/']) := by
  obtain ⟨as, c, hconcat⟩ : ∃ as c, n.toList = as ++ [c] := by
    rcases List.eq_nil_or_concat n.toList with h | ⟨as, c, h⟩
    · exact absurd h hn.ne_nil
    · exact ⟨as, c, by rw [h, List.concat_eq_append]⟩
  have hc : c ≠ '/' := by
    rintro rfl
    exact hn.slash_notMem (by simp [hconcat])
  have hopen : ¬ (p.opening ++ n.toList).getLast?.all (· == '/') = true := by
    rw [hconcat, ← List.append_assoc, List.getLast?_concat]
    simpa using hc
  rw [join_eq p (isAbsolute_name hn), opening, chars_ofChars]
  change (if (p.opening ++ n.toList).getLast?.all (· == '/') = true then _ else _) = _
  rw [if_neg hopen]
  exact List.append_assoc _ _ _

theorem join_within (p : Path) {n : String} (hn : Live n.toList) {ws : List (List Char)} (hne : ws ≠ []) :
    (p.join ⟨n⟩).within ws = p.within (n.toList :: ws) := by
  unfold within
  rw [opening_join p hn, joinSlash_cons _ hne]
  simp

end Path

/-- The path of a source. -/
theorem Source.ofNames_path (dir : Path) {names : List String} (hne : names ≠ [])
    (h : ∀ n ∈ names, Live n.toList) :
    (Source.ofNames dir names).path = dir.within (names.map String.toList) := by
  unfold Source.ofNames
  dsimp only
  induction names generalizing dir with
  | nil => exact absurd rfl hne
  | cons n names ih =>
      obtain ⟨hn, hnames⟩ := List.forall_mem_cons.mp h
      rw [List.foldl_cons]
      by_cases hnil : names = []
      · subst hnil
        rw [List.foldl_nil, join_eq dir (isAbsolute_name hn), within, List.map_singleton, joinSlash_singleton]
        rfl
      · rw [ih (dir.join ⟨n⟩) hnil hnames, join_within dir hn (by simpa using hnil), List.map_cons]

/-- The place of a source under another directory. -/
theorem Source.join_relative (dir dest : Path) {names : List String} (hne : names ≠ [])
    (h : ∀ n ∈ names, Live n.toList) :
    dest.join (Source.ofNames dir names).relative = dest.within (names.map String.toList) := by
  have hchars : (Source.ofNames dir names).relative.chars = joinSlash (names.map String.toList) := by
    rw [Source.ofNames, Path.chars, String.toList_intercalate]
    rfl
  have hlive : ∀ w ∈ names.map String.toList, Live w := by simpa using h
  rw [join_eq dest (isAbsolute_joinSlash (by simpa using hne) hlive hchars), hchars]
  rfl

/-! ## The last name -/

section Last

variable {dirs : List String} {n : String} {stem ext : List Char}

/-- What stands before the last name of a path, whatever that name is. -/
theorem Path.within_concat (p : Path) (ws : List (List Char)) :
    ∃ as, Opens as ∧ ∀ w, p.within (ws ++ [w]) = ofChars (as ++ w) := by
  obtain ⟨as, hopens, hjoin⟩ := (opens_opening p).append_joinSlash ws
  exact ⟨as, hopens, fun w => congrArg ofChars (hjoin w)⟩

/-- The extension of a source is that of the last name that leads to it. -/
theorem Source.extension?_ofNames (dir : Path) (h : ∀ m ∈ dirs ++ [n], Proper m.toList) :
    (Source.ofNames dir (dirs ++ [n])).path.extension? = (splitName n.toList).2 := by
  obtain ⟨as, hopens, hwithin⟩ := dir.within_concat (dirs.map String.toList)
  have hpath : (Source.ofNames dir (dirs ++ [n])).path = ofChars (as ++ n.toList) := by
    rw [Source.ofNames_path dir (by simp) fun m hm => (h m hm).toLive, List.map_append, List.map_singleton,
      hwithin]
  rw [extension?, fileName?_eq hopens (h n (by simp)) (by rw [hpath, chars_ofChars])]
  rfl

/-- The target of a source: the last name is renamed. -/
theorem target?_eq (o : Options) (dir dest : Path) (h : ∀ m ∈ dirs ++ [n], Proper m.toList)
    (hname : splitName n.toList = (stem, some ext)) (hslash : '/' ∉ o.outExtension) :
    o.target? dest (Source.ofNames dir (dirs ++ [n])) =
      some (dest.within (dirs.map String.toList ++ [outputName stem o.outExtension])) := by
  obtain ⟨hsplit, hstem, hext⟩ := splitName_some hname
  obtain ⟨as, hopens, hwithin⟩ := dest.within_concat (dirs.map String.toList)
  have hplace : dest.join (Source.ofNames dir (dirs ++ [n])).relative =
      ofChars (as ++ (stem ++ '.' :: ext)) := by
    rw [Source.join_relative dir dest (by simp) fun m hm => (h m hm).toLive, List.map_append,
      List.map_singleton, hwithin, hsplit]
  have hproper : Proper (stem ++ '.' :: ext) := hsplit ▸ h n (by simp)
  rw [Options.target?, Options.outputPath?, hwithin, hplace]
  exact withExtension?_eq hopens hproper hstem hext hslash (chars_ofChars _)

end Last

/-! ## Locations -/

namespace Disk

variable {d : Disk}

theorem names_of_proper {n : String} (h : Proper n.toList) : Names n := by
  refine ⟨?_, ?_, ?_⟩
  · rintro rfl
    exact h.ne_nil rfl
  · rintro rfl
    exact h.ne_dot rfl
  · rintro rfl
    exact h.ne_dots rfl

theorem foldl_follow_names (l : Location) {names : List String} (h : ∀ n ∈ names, Names n) :
    names.foldl follow l = l ++ names := by
  induction names generalizing l with
  | nil => simp
  | cons n names ih =>
      obtain ⟨hn, hnames⟩ := List.forall_mem_cons.mp h
      rw [List.foldl_cons, follow_of_names hn, ih _ hnames, List.append_assoc]
      rfl

/-- The parts of what names lead to from a directory end in these names; those before lead to the
    directory. -/
theorem partsOf_within (d : Disk) (p : Path) : ∃ init, init.foldl follow (d.startOf p) = d.locate p ∧
    ∀ ws, ws ≠ [] → (∀ w ∈ ws, Live w) →
      partsOf (p.within ws) = init ++ ws.map String.ofList ∧ d.startOf (p.within ws) = d.startOf p := by
  have hstart : ∀ q : Path, q.chars.head? = p.chars.head? → d.startOf q = d.startOf p := by
    intro q hhead
    unfold startOf isAbsolute
    rw [hhead]
  have hidle : ∀ l, follow l (String.ofList []) = l := fun l => if_pos (.inl rfl)
  rcases p.opening_cases with ⟨hchars, hopening⟩ | ⟨bs, hopening, hchars⟩
  · refine ⟨[], ?_, fun ws hne h => ⟨?_, ?_⟩⟩
    · rw [locate, partsOf, hchars, splitSlash, List.map_singleton, List.foldl_cons, hidle]
    · rw [partsOf, within, hopening, chars_ofChars, List.nil_append, List.nil_append,
        splitSlash_joinSlash hne fun w hw => (h w hw).slash_notMem]
    · have hwithin : (p.within ws).chars = joinSlash ws := by
        rw [within, hopening, chars_ofChars, List.nil_append]
      have hrelative := isAbsolute_joinSlash hne h hwithin
      have hrelative' : p.isAbsolute = false := by
        rw [isAbsolute, hchars]
        rfl
      rw [startOf, startOf, hrelative, hrelative']
  · refine ⟨(splitSlash bs).map String.ofList, ?_, fun ws hne h => ⟨?_, hstart _ ?_⟩⟩
    · rcases hchars with ⟨hchars, _⟩ | hchars
      · rw [locate, partsOf, hchars]
      · rw [locate, partsOf, hchars, splitSlash_append, List.map_append, List.foldl_append, splitSlash,
          List.map_singleton, List.foldl_cons, hidle]
        rfl
    · rw [partsOf, within, hopening, chars_ofChars, List.append_assoc, List.singleton_append,
        splitSlash_append, splitSlash_joinSlash hne fun w hw => (h w hw).slash_notMem, List.map_append]
    · rw [within, hopening, chars_ofChars]
      cases bs with
      | nil =>
          rcases hchars with ⟨_, hne'⟩ | hchars
          · exact absurd rfl hne'
          · rw [hchars]
            rfl
      | cons c bs =>
          rcases hchars with ⟨hchars, _⟩ | hchars
          · rw [hchars]
            rfl
          · rw [hchars]
            rfl

theorem locate_within (d : Disk) (p : Path) {ws : List (List Char)} (hne : ws ≠ []) (h : ∀ w ∈ ws, Live w) :
    d.locate (p.within ws) = (ws.map String.ofList).foldl follow (d.locate p) := by
  obtain ⟨init, hinit, hparts⟩ := partsOf_within d p
  obtain ⟨hws, hstart⟩ := hparts ws hne h
  rw [locate, hws, hstart, List.foldl_append, hinit]

end Disk

/-! ## Finding sources -/

namespace Disk

variable {d : Disk}

/-- A disk as it is found: its files stand in directories, each once, under names of entries. -/
structure WellFormed (d : Disk) : Prop extends Tidy d where
  files_inside : ∀ l, (d.bytes? l).isSome = true → d.isDir l.dropLast = true
  files_once : (d.files.map Prod.fst).Nodup
  names_proper : ∀ l, (d.bytes? l).isSome = true → ∀ n ∈ l, Proper n.toList

theorem isSome_bytes?_iff {l : Location} : (d.bytes? l).isSome = true ↔ ∃ f ∈ d.files, f.1 = l := by
  unfold bytes?
  induction d.files with
  | nil => simp
  | cons f fs ih =>
      obtain ⟨k, b⟩ := f
      by_cases hk : l = k
      · subst hk
        simp
      · have hbeq : (l == k) = false := by simpa using hk
        rw [List.lookup_cons, hbeq]
        simp only [ih, List.mem_cons, exists_eq_or_imp, Ne.symm hk, false_or]

theorem forall_isDir {P : Location → Prop} : (∀ l, d.isDir l = true → P l) ↔ ∀ l ∈ [] :: d.dirs, P l := by
  simp only [isDir_iff, List.mem_cons]

theorem forall_files {P : Location → Prop} :
    (∀ l, (d.bytes? l).isSome = true → P l) ↔ ∀ l ∈ d.files.map Prod.fst, P l := by
  simp only [isSome_bytes?_iff, List.mem_map]

/-- Whether a disk is well-formed can be found out by going through its files and directories. -/
instance (d : Disk) : Decidable d.WellFormed :=
  decidable_of_iff
    (((∀ l ∈ [] :: d.dirs, d.isDir l.dropLast = true) ∧ ∀ l ∈ [] :: d.dirs, d.bytes? l = none) ∧
      (∀ l ∈ d.files.map Prod.fst, d.isDir l.dropLast = true) ∧ (d.files.map Prod.fst).Nodup ∧
      ∀ l ∈ d.files.map Prod.fst, ∀ n ∈ l, Proper n.toList)
    ⟨fun h => ⟨⟨forall_isDir.mpr h.1.1, forall_isDir.mpr h.1.2⟩, forall_files.mpr h.2.1, h.2.2.1,
        forall_files.mpr h.2.2.2⟩,
      fun h => ⟨⟨forall_isDir.mp h.dirs_inside, forall_isDir.mp h.apart⟩, forall_files.mp h.files_inside,
        h.files_once, forall_files.mp h.names_proper⟩⟩

theorem below?_eq_some_iff {l k : Location} {names : List String} :
    below? l k = some names ↔ k = l ++ names := by
  induction l generalizing k with
  | nil => simp [below?]
  | cons n l ih =>
      cases k with
      | nil => simp [below?]
      | cons m k =>
          by_cases hm : n = m
          · subst hm
            simp [below?, ih]
          · simp [below?, hm, Ne.symm hm]

theorem foundBefore_trans (as bs cs : List String) (h₁ : foundBefore as bs = true)
    (h₂ : foundBefore bs cs = true) : foundBefore as cs = true := by
  induction as generalizing bs cs with
  | nil => rfl
  | cons a as ih =>
      cases bs with
      | nil => cases h₁
      | cons b bs =>
          cases cs with
          | nil => cases h₂
          | cons c cs =>
              simp only [foundBefore, Bool.or_eq_true, Bool.and_eq_true, decide_eq_true_eq, beq_iff_eq] at h₁ h₂ ⊢
              rcases h₁ with hab | ⟨rfl, hrest₁⟩
              · rcases h₂ with hbc | ⟨rfl, _⟩
                · exact .inl (String.lt_trans hab hbc)
                · exact .inl hab
              · rcases h₂ with hbc | ⟨rfl, hrest₂⟩
                · exact .inl hbc
                · exact .inr ⟨rfl, ih bs cs hrest₁ hrest₂⟩

theorem foundBefore_total (as bs : List String) : (foundBefore as bs || foundBefore bs as) = true := by
  induction as generalizing bs with
  | nil => rfl
  | cons a as ih =>
      cases bs with
      | nil => rfl
      | cons b bs =>
          have hrest := ih bs
          simp only [foundBefore, Bool.or_eq_true, Bool.and_eq_true, decide_eq_true_eq, beq_iff_eq] at hrest ⊢
          by_cases hlt : a < b
          · exact .inl (.inl hlt)
          · by_cases hgt : b < a
            · exact .inr (.inl hgt)
            · have heq : a = b := String.le_antisymm (String.not_lt.mp hgt) (String.not_lt.mp hlt)
              rcases hrest with hrest | hrest
              · exact .inl (.inr ⟨heq, hrest⟩)
              · exact .inr (.inr ⟨heq.symm, hrest⟩)

theorem foundBefore_antisymm (as bs : List String) (h₁ : foundBefore as bs = true)
    (h₂ : foundBefore bs as = true) : as = bs := by
  induction as generalizing bs with
  | nil =>
      cases bs with
      | nil => rfl
      | cons b bs => cases h₂
  | cons a as ih =>
      cases bs with
      | nil => cases h₁
      | cons b bs =>
          simp only [foundBefore, Bool.or_eq_true, Bool.and_eq_true, decide_eq_true_eq, beq_iff_eq] at h₁ h₂
          rcases h₁ with hab | ⟨rfl, hrest₁⟩
          · rcases h₂ with hba | ⟨rfl, _⟩
            · exact absurd hba (String.lt_asymm hab)
            · exact absurd hab (String.lt_irrefl b)
          · rcases h₂ with hba | ⟨_, hrest₂⟩
            · exact absurd hba (String.lt_irrefl a)
            · rw [ih bs hrest₁ hrest₂]

/-- Files under a location are found each once, in order. -/
theorem filesUnder_spec (hd : d.WellFormed) (root : Location) :
    (∀ names, names ∈ d.filesUnder root ↔ (d.bytes? (root ++ names)).isSome = true) ∧
      (d.filesUnder root).Nodup ∧ (d.filesUnder root).Pairwise fun as bs => foundBefore as bs = true := by
  have hperm := List.mergeSort_perm (d.files.filterMap fun f => below? root f.1) foundBefore
  refine ⟨fun names => ?_, ?_, ?_⟩
  · rw [filesUnder, hperm.mem_iff, List.mem_filterMap, isSome_bytes?_iff]
    simp only [below?_eq_some_iff]
  · refine hperm.nodup_iff.mpr ?_
    have hfiles : d.files.Pairwise fun f g => f.1 ≠ g.1 := List.pairwise_map.mp hd.files_once
    refine List.Pairwise.filterMap _ (fun f g hne names hnames names' hnames' heq => ?_) hfiles
    subst heq
    exact hne ((below?_eq_some_iff.mp hnames).trans (below?_eq_some_iff.mp hnames').symm)
  · exact List.pairwise_mergeSort foundBefore_trans foundBefore_total _

/-- On a well-formed disk there is nothing under a file. -/
theorem WellFormed.eq_nil_of_file (hd : d.WellFormed) {root : Location} {names : List String}
    (hroot : (d.bytes? root).isSome = true) (h : (d.bytes? (root ++ names)).isSome = true) : names = [] := by
  by_cases hne : names = []
  · exact hne
  · have hinside := hd.files_inside _ h
    rw [List.dropLast_append_of_ne_nil hne] at hinside
    rw [hd.apart root (hd.isDir_of_append hinside)] at hroot
    cases hroot

end Disk

/-- The extension of the last name of a location. -/
def extensionAt? (l : Location) : Option (List Char) := l.getLast?.bind fun n => (splitName n.toList).2

/-- There is a file at the location, and it has the extension of a source. -/
def Options.IsSourceAt (o : Options) (d : Disk) (l : Location) : Prop :=
  (d.bytes? l).isSome = true ∧ extensionAt? l = some o.extension

/-- These names lead from a location to the sources under it, in the order of a search. -/
structure Discovered (o : Options) (d : Disk) (root : Location) (found : List (List String)) : Prop where
  mem_iff : ∀ names, names ∈ found ↔ o.IsSourceAt d (root ++ names)
  once : found.Nodup
  ordered : found.Pairwise fun as bs => Disk.foundBefore as bs = true

/-- What is discovered is determined, and so is its order. -/
theorem Discovered.unique {o : Options} {d : Disk} {root : Location} {found found' : List (List String)}
    (h : Discovered o d root found) (h' : Discovered o d root found') : found = found' := by
  have hperm : found.Perm found' := by
    refine (List.perm_ext_iff_of_nodup h.once h'.once).mpr fun names => ?_
    rw [h.mem_iff, h'.mem_iff]
  exact hperm.eq_of_pairwise (fun as bs _ _ => Disk.foundBefore_antisymm as bs) h.ordered h'.ordered

/-- A path that leads to a file has its name. -/
theorem extension?_of_resolve {d : Disk} {p : Path} {l : Location} (hd : d.Tidy) (h : d.resolve p = .ok l)
    (hfile : (d.bytes? l).isSome = true) : p.extension? = extensionAt? l := by
  obtain ⟨ws, w, hsplit⟩ : ∃ ws w, splitSlash p.chars = ws ++ [w] :=
    ⟨_, _, (List.dropLast_concat_getLast (splitSlash_ne_nil p.chars)).symm⟩
  have hparts : Disk.partsOf p = ws.map String.ofList ++ [String.ofList w] := by
    rw [Disk.partsOf, hsplit, List.map_append, List.map_singleton]
  have hnames : Disk.Names (String.ofList w) := by
    refine Classical.byContradiction fun hlast => ?_
    rw [hd.apart l (Disk.isDir_of_resolve hd h hparts hlast)] at hfile
    cases hfile
  have hproper : Proper w := by
    obtain ⟨hempty, hdot, hdots⟩ := hnames
    refine ⟨⟨?_, ?_, ?_⟩, ?_⟩
    · rintro rfl
      exact hempty rfl
    · rintro rfl
      exact hdot rfl
    · exact notMem_of_mem_splitSlash (by rw [hsplit]; simp)
    · rintro rfl
      exact hdots rfl
  obtain ⟨as, hopens, hjoin⟩ := Opens.append_joinSlash (.inl rfl) ws
  have hchars : p.chars = as ++ w := by
    rw [← joinSlash_splitSlash p.chars, hsplit, ← hjoin w, List.nil_append]
  have hlocation : l = (ws.map String.ofList).foldl Disk.follow (d.startOf p) ++ [String.ofList w] := by
    rw [Disk.resolve_locate h, Disk.locate, hparts, List.foldl_append, List.foldl_cons,
      Disk.follow_of_names hnames]
    rfl
  rw [extension?, fileName?_eq hopens hproper hchars, hlocation, extensionAt?, List.getLast?_concat]
  simp

/-- A search finds the sources under the location that its path leads to. -/
theorem discover_ok {d : Disk} {dir : Path} {root : Location} (o : Options) (hd : d.WellFormed)
    (hdir : d.resolve dir = .ok root) :
    ∃ found, Discovered o d root found ∧
      (discover o dir : StateM Disk _) d = (.ok (found.map (Source.ofNames dir)), d) := by
  obtain ⟨hmem, honce, hordered⟩ := Disk.filesUnder_spec hd root
  have hsource : ∀ names, (d.bytes? (root ++ names)).isSome = true →
      (Source.ofNames dir names).path.extension? = extensionAt? (root ++ names) := by
    intro names hfile
    rcases List.eq_nil_or_concat names with rfl | ⟨dirs, n, rfl⟩
    · rw [List.append_nil] at hfile ⊢
      exact extension?_of_resolve hd.toTidy hdir hfile
    · rw [List.concat_eq_append] at hfile ⊢
      have hproper : ∀ m ∈ dirs ++ [n], Proper m.toList :=
        fun m hm => hd.names_proper _ hfile m (List.mem_append_right root hm)
      rw [Source.extension?_ofNames dir hproper, extensionAt?, ← List.append_assoc, List.getLast?_concat]
      rfl
  refine ⟨(d.filesUnder root).filter fun names => o.isSource (Source.ofNames dir names).path, ⟨?_, ?_, ?_⟩, ?_⟩
  · intro names
    rw [List.mem_filter, hmem names, Options.isSource, beq_iff_eq]
    exact and_congr_right fun hfile => by rw [hsource names hfile]
  · exact honce.filter _
  · exact hordered.filter _
  · have hwalk : d.walk dir = .ok (d.filesUnder root) := by rw [Disk.walk, hdir]
    have hmap : ((d.filesUnder root).map (Source.ofNames dir)).filter (fun s => o.isSource s.path) =
        ((d.filesUnder root).filter fun names => o.isSource (Source.ofNames dir names).path).map
          (Source.ofNames dir) :=
      List.filter_map
    change ((d.walk dir).map _, d) = _
    rw [hwalk, ← hmap]
    rfl

/-- A source is where its names lead. -/
theorem Disk.locate_ofNames (d : Disk) (dir : Path) {names : List String} (h : ∀ n ∈ names, Proper n.toList) :
    d.locate (Source.ofNames dir names).path = d.locate dir ++ names := by
  by_cases hne : names = []
  · subst hne
    exact (List.append_nil _).symm
  · have hlive : ∀ w ∈ names.map String.toList, Live w := by
      intro w hw
      obtain ⟨n, hn, rfl⟩ := List.mem_map.mp hw
      exact (h n hn).toLive
    have hstrings : (names.map String.toList).map String.ofList = names := by simp
    rw [Source.ofNames_path dir hne fun n hn => (h n hn).toLive, locate_within d dir (by simpa using hne) hlive,
      hstrings, foldl_follow_names _ fun n hn => names_of_proper (h n hn)]

/-! ## Targets apart -/

/-- Every source has a target, unless the extension of the output holds a slash. -/
theorem target?_of_slash_notMem (o : Options) (dest : Path) (s : Source) (hslash : '/' ∉ o.outExtension) :
    ∃ target, o.target? dest s = some target := by
  unfold Options.target? Options.outputPath? withExtension?
  rw [if_neg (by simpa using hslash)]
  cases (dest.join s.relative).extension? with
  | none => exact ⟨_, rfl⟩
  | some old => exact ⟨_, rfl⟩

theorem live_outputName {stem old ext : List Char} (hname : Proper (stem ++ '.' :: old)) (hstem : stem ≠ [])
    (hslash : '/' ∉ ext) : Live (outputName stem ext) := by
  have hstem' : '/' ∉ stem := fun h => hname.slash_notMem (List.mem_append_left _ h)
  unfold outputName
  split
  · exact ⟨by decide, by decide, by decide⟩
  · next hdot =>
      split
      · exact ⟨hstem, hdot, hstem'⟩
      · refine ⟨by simp, fun h => ?_, by simp [hstem', hslash]⟩
        have hlength := congrArg List.length h
        simp only [List.length_append, List.length_cons, List.length_nil] at hlength
        exact hstem (List.length_eq_zero_iff.mp (by omega))

/-- The stem can be told from the name of the output, unless that names no entry. -/
theorem outputName_injective {stem stem' ext : List Char} (hdots : outputName stem ext ≠ ['.', '.'])
    (h : outputName stem ext = outputName stem' ext) : stem = stem' := by
  have hstem : stem ≠ ['.'] := fun hstem => hdots (if_pos hstem)
  have hstem' : stem' ≠ ['.'] := fun hstem' => hdots (h.trans (if_pos hstem'))
  rw [outputName, outputName, if_neg hstem, if_neg hstem'] at h
  split at h
  · exact h
  · exact List.append_cancel_right h

/-- What names lead to from a directory stands under the location of the directory, if it is a file. -/
theorem Disk.location_within {e : Disk} (he : e.Tidy) {p : Path} {dirs : List String} {w : List Char}
    {l : Location} (hdirs : ∀ m ∈ dirs, Proper m.toList) (hw : Live w)
    (h : e.resolve (p.within (dirs.map String.toList ++ [w])) = .ok l) (hfile : e.isDir l = false) :
    l = e.locate p ++ (dirs ++ [String.ofList w]) ∧ w ≠ ['.', '.'] := by
  have hlive : ∀ v ∈ dirs.map String.toList ++ [w], Live v := by
    intro v hv
    rcases List.mem_append.mp hv with hv | hv
    · obtain ⟨m, hm, rfl⟩ := List.mem_map.mp hv
      exact (hdirs m hm).toLive
    · rwa [List.mem_singleton.mp hv]
  have hstrings : (dirs.map String.toList).map String.ofList = dirs := by
    simp
  obtain ⟨init, hinit, hparts⟩ := partsOf_within e p
  obtain ⟨hpartsOf, _⟩ := hparts _ (by simp) hlive
  rw [List.map_append, hstrings, List.map_singleton, ← List.append_assoc] at hpartsOf
  have hnames : Names (String.ofList w) := by
    refine Classical.byContradiction fun hlast => ?_
    rw [isDir_of_resolve he h hpartsOf hlast] at hfile
    cases hfile
  refine ⟨?_, ?_⟩
  · rw [resolve_locate h, locate_within e p (by simp) hlive, List.map_append, hstrings, List.map_singleton,
      foldl_follow_names]
    intro m hm
    rcases List.mem_append.mp hm with hm | hm
    · exact names_of_proper (hdirs m hm)
    · rwa [List.mem_singleton.mp hm]
  · rintro rfl
    exact hnames.2.2 rfl

section Targets

variable {o : Options} {d e : Disk} {root l : Location} {found : List (List String)} {dir dest : Path}

/-- Where the target of a source is, if it is a file: its names lead there from the location of the
    directory, but the last one has another extension. -/
theorem Discovered.target_location {dirs : List String} {n : String} {target : Path}
    (hfound : Discovered o d root found) (hd : d.WellFormed) (he : e.Tidy) (hslash : '/' ∉ o.outExtension)
    (hnames : dirs ++ [n] ∈ found) (ht : o.target? dest (Source.ofNames dir (dirs ++ [n])) = some target)
    (hl : e.resolve target = .ok l) (hfile : e.isDir l = false) :
    ∃ stem, n.toList = stem ++ '.' :: o.extension ∧
      l = e.locate dest ++ (dirs ++ [String.ofList (outputName stem o.outExtension)]) ∧
      outputName stem o.outExtension ≠ ['.', '.'] := by
  obtain ⟨hsource, hext⟩ := (hfound.mem_iff (dirs ++ [n])).mp hnames
  have hproper : ∀ m ∈ dirs ++ [n], Proper m.toList :=
    fun m hm => hd.names_proper _ hsource m (List.mem_append_right root hm)
  rw [extensionAt?, ← List.append_assoc, List.getLast?_concat] at hext
  have hname : splitName n.toList = ((splitName n.toList).1, some o.extension) := Prod.ext rfl hext
  obtain ⟨hsplit, hstem, _⟩ := splitName_some hname
  have hlive := live_outputName (hsplit ▸ hproper n (by simp)) hstem hslash
  rw [target?_eq o dir dest hproper hname hslash] at ht
  cases ht
  obtain ⟨hlocation, hdots⟩ := Disk.location_within he (fun m hm => hproper m (by simp [hm])) hlive hl hfile
  exact ⟨_, hsplit, hlocation, hdots⟩

/-- No two sources have one target. -/
theorem Discovered.target_injective {names names' : List String} {target target' : Path}
    (hfound : Discovered o d root found) (hd : d.WellFormed) (he : e.Tidy) (hslash : '/' ∉ o.outExtension)
    (hnames : names ∈ found) (hnames' : names' ∈ found)
    (ht : o.target? dest (Source.ofNames dir names) = some target)
    (ht' : o.target? dest (Source.ofNames dir names') = some target')
    (hl : e.resolve target = .ok l) (hl' : e.resolve target' = .ok l) (hfile : e.isDir l = false) :
    names = names' := by
  have hsource := ((hfound.mem_iff names).mp hnames).1
  have hsource' := ((hfound.mem_iff names').mp hnames').1
  -- A search that starts from a file finds that file only.
  rcases List.eq_nil_or_concat names with rfl | ⟨dirs, n, rfl⟩
  · rw [List.append_nil] at hsource
    exact (hd.eq_nil_of_file hsource hsource').symm
  rcases List.eq_nil_or_concat names' with rfl | ⟨dirs', n', rfl⟩
  · rw [List.append_nil] at hsource'
    exact hd.eq_nil_of_file hsource' hsource
  rw [List.concat_eq_append] at hnames hnames' ht ht' ⊢
  rw [List.concat_eq_append]
  obtain ⟨stem, hn, hlocation, hdots⟩ := hfound.target_location hd he hslash hnames ht hl hfile
  obtain ⟨stem', hn', hlocation', _⟩ := hfound.target_location hd he hslash hnames' ht' hl' hfile
  have hends := List.append_cancel_left (hlocation.symm.trans hlocation')
  obtain ⟨hdirs, hlast⟩ := List.append_inj' hends rfl
  have houtput : outputName stem o.outExtension = outputName stem' o.outExtension :=
    String.ofList_injective (List.singleton_inj.mp hlast)
  rw [hdirs, String.toList_injective (hn.trans ((outputName_injective hdots houtput) ▸ hn'.symm))]

end Targets

end Respell
