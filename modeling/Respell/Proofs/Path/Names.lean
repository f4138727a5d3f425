import Respell.Path

/-!
# Names in paths

A path divides at its slashes. Where what stands before the last name is empty or ends in a slash, that
name is found, taken off and replaced as if the rest of the path were not there: what a path has in front of
its last name is never looked into and never changed.
-/

namespace Respell.Path

/-! ## Dividing at slashes -/

theorem splitSlash_ne_nil (cs : List Char) : splitSlash cs ≠ [] := by
  cases cs with
  | nil => simp [splitSlash]
  | cons c cs =>
      unfold splitSlash
      split
      · simp
      · split <;> simp

/-- A text divides at a slash in it into what its two parts divide into. -/
theorem splitSlash_append (as bs : List Char) :
    splitSlash (as ++ '/' :: bs) = splitSlash as ++ splitSlash bs := by
  induction as with
  | nil => simp [splitSlash]
  | cons c as ih =>
      rw [List.cons_append, splitSlash, splitSlash, ih]
      split
      · rfl
      · cases hsplit : splitSlash as with
        | nil => exact absurd hsplit (splitSlash_ne_nil as)
        | cons w ws => rfl

theorem splitSlash_of_notMem {w : List Char} (h : '/' ∉ w) : splitSlash w = [w] := by
  induction w with
  | nil => rfl
  | cons c w ih =>
      obtain ⟨hc, hw⟩ := not_or.mp (mt List.mem_cons.mpr h)
      rw [splitSlash, if_neg (Ne.symm hc), ih hw]

theorem notMem_of_mem_splitSlash {cs w : List Char} (h : w ∈ splitSlash cs) : '/' ∉ w := by
  induction cs generalizing w with
  | nil =>
      rw [List.mem_singleton.mp h]
      simp
  | cons c cs ih =>
      unfold splitSlash at h
      split at h
      · rcases List.mem_cons.mp h with rfl | h
        · simp
        · exact ih h
      · next hc =>
          cases hsplit : splitSlash cs with
          | nil => exact absurd hsplit (splitSlash_ne_nil cs)
          | cons v vs =>
              rw [hsplit] at h ih
              rcases List.mem_cons.mp h with rfl | h
              · rw [List.mem_cons, not_or]
                exact ⟨Ne.symm hc, ih List.mem_cons_self⟩
              · exact ih (List.mem_cons_of_mem _ h)

@[simp] theorem joinSlash_singleton (w : List Char) : joinSlash [w] = w := by
  simp [joinSlash, List.intercalate]

theorem joinSlash_cons (w : List Char) {ws : List (List Char)} (h : ws ≠ []) :
    joinSlash (w :: ws) = w ++ '/' :: joinSlash ws := by
  cases ws with
  | nil => exact absurd rfl h
  | cons v vs => simp [joinSlash, List.intercalate, List.intersperse]

/-- One more piece is put after a slash. -/
theorem joinSlash_concat {ws : List (List Char)} (h : ws ≠ []) (w : List Char) :
    joinSlash (ws ++ [w]) = joinSlash ws ++ '/' :: w := by
  induction ws with
  | nil => exact absurd rfl h
  | cons v vs ih =>
      by_cases hvs : vs = []
      · subst hvs
        rw [List.singleton_append, joinSlash_cons v (List.cons_ne_nil _ _), joinSlash_singleton,
          joinSlash_singleton]
      · rw [List.cons_append, joinSlash_cons v (by simp), ih hvs, joinSlash_cons v hvs, List.append_assoc]
        rfl

/-- What a text divides into gives the text back. -/
theorem joinSlash_splitSlash (cs : List Char) : joinSlash (splitSlash cs) = cs := by
  induction cs with
  | nil => rfl
  | cons c cs ih =>
      unfold splitSlash
      split
      · next hc => rw [joinSlash_cons [] (splitSlash_ne_nil cs), ih, hc, List.nil_append]
      · cases hsplit : splitSlash cs with
        | nil => exact absurd hsplit (splitSlash_ne_nil cs)
        | cons w ws =>
            rw [hsplit] at ih
            by_cases hws : ws = []
            · subst hws
              rw [← ih]
              rfl
            · rw [joinSlash_cons _ hws, ← ih, joinSlash_cons _ hws, List.cons_append]

/-- Pieces that hold no slash are found again. -/
theorem splitSlash_joinSlash {ws : List (List Char)} (hne : ws ≠ []) (h : ∀ w ∈ ws, '/' ∉ w) :
    splitSlash (joinSlash ws) = ws := by
  induction ws with
  | nil => exact absurd rfl hne
  | cons w ws ih =>
      obtain ⟨hw, hws⟩ := List.forall_mem_cons.mp h
      by_cases hnil : ws = []
      · subst hnil
        rw [joinSlash_singleton, splitSlash_of_notMem hw]
      · rw [joinSlash_cons w hnil, splitSlash_append, splitSlash_of_notMem hw, ih hnil hws]
        rfl

/-! ## What stands before a name -/

/-- A part that is not passed over. -/
structure Live (w : List Char) : Prop where
  ne_nil : w ≠ []
  ne_dot : w ≠ ['.']
  slash_notMem : '/' ∉ w

/-- A name that leads to an entry of a directory. -/
structure Proper (w : List Char) : Prop extends Live w where
  ne_dots : w ≠ ['.', '.']

theorem proper_iff {w : List Char} : Proper w ↔ w ≠ [] ∧ w ≠ ['.'] ∧ '/' ∉ w ∧ w ≠ ['.', '.'] :=
  ⟨fun h => ⟨h.ne_nil, h.ne_dot, h.slash_notMem, h.ne_dots⟩, fun h => ⟨⟨h.1, h.2.1, h.2.2.1⟩, h.2.2.2⟩⟩

instance (w : List Char) : Decidable (Proper w) := decidable_of_iff _ proper_iff.symm

/-- Nothing, or something with a slash at its end. -/
def Opens (as : List Char) : Prop := as = [] ∨ ∃ bs, as = bs ++ ['/']

theorem Opens.drop {as : List Char} (h : Opens as) {k : Nat} (hk : k ≤ as.length) : Opens (as.drop k) := by
  rcases h with rfl | ⟨bs, rfl⟩
  · exact .inl (by simp)
  · by_cases hlast : k = (bs ++ ['/']).length
    · exact .inl (by simp [hlast])
    · refine .inr ⟨bs.drop k, ?_⟩
      rw [List.length_append] at hk hlast
      have hle : k ≤ bs.length := by simp at hk hlast; omega
      rw [List.drop_append_of_le_length hle]

/-- What a path divides into before a name, whatever the name is. -/
theorem Opens.pieces {as : List Char} (h : Opens as) :
    ∃ ws, (∀ w, '/' ∉ w → splitSlash (as ++ w) = ws ++ [w]) ∧ ∀ w, joinSlash (ws ++ [w]) = as ++ w := by
  rcases h with rfl | ⟨bs, rfl⟩
  · exact ⟨[], fun w hw => splitSlash_of_notMem hw, fun w => joinSlash_singleton w⟩
  · refine ⟨splitSlash bs, fun w hw => ?_, fun w => ?_⟩
    · rw [List.append_assoc, List.singleton_append, splitSlash_append, splitSlash_of_notMem hw]
    · rw [joinSlash_concat (splitSlash_ne_nil bs), joinSlash_splitSlash, List.append_assoc]
      rfl

/-- Further names may stand before the last one. -/
theorem Opens.append_joinSlash {as : List Char} (h : Opens as) (ws : List (List Char)) :
    ∃ bs, Opens bs ∧ ∀ w, as ++ joinSlash (ws ++ [w]) = bs ++ w := by
  by_cases hws : ws = []
  · subst hws
    refine ⟨as, h, fun w => ?_⟩
    rw [List.nil_append, joinSlash_singleton]
  · refine ⟨as ++ joinSlash ws ++ ['/'], .inr ⟨_, rfl⟩, fun w => ?_⟩
    rw [joinSlash_concat hws]
    simp

/-! ## Directories -/

/-- What the paths of entries of a directory begin with. -/
def opening (p : Path) : List Char :=
  if p.chars.getLast?.all (· == '/') then p.chars else p.chars ++ ['/']

theorem opens_opening (p : Path) : Opens p.opening := by
  unfold opening
  split
  · next h =>
      rcases List.eq_nil_or_concat p.chars with hnil | ⟨bs, c, hbs⟩
      · exact .inl hnil
      · rw [hbs] at h ⊢
        simp at h
        exact .inr ⟨bs, by rw [h, List.concat_eq_append]⟩
  · exact .inr ⟨_, rfl⟩

theorem join_eq (p : Path) {q : Path} (h : q.isAbsolute = false) :
    p.join q = ofChars (p.opening ++ q.chars) := by
  unfold join opening
  rw [h]
  split
  · next hfalse => cases hfalse
  · split <;> simp

/-! ## Stems and extensions -/

theorem takeWhile_append_of_dot_notMem {as : List Char} (h : '.' ∉ as) (bs : List Char) :
    (as ++ bs).takeWhile (· != '.') = as ++ bs.takeWhile (· != '.') := by
  refine List.takeWhile_append_of_pos fun c hc => ?_
  have hne : c ≠ '.' := fun heq => h (heq ▸ hc)
  simpa using hne

theorem splitName_append {stem ext : List Char} (hstem : stem ≠ []) (hext : '.' ∉ ext) :
    splitName (stem ++ '.' :: ext) = (stem, some ext) := by
  have htake : (stem ++ '.' :: ext).reverse.takeWhile (· != '.') = ext.reverse := by
    rw [List.reverse_append, List.reverse_cons, List.append_assoc,
      takeWhile_append_of_dot_notMem (by rwa [List.mem_reverse])]
    simp
  have hlength : (stem ++ '.' :: ext).length - ext.length - 1 = stem.length := by
    rw [List.length_append, List.length_cons]
    omega
  unfold splitName
  dsimp only
  rw [htake, List.reverse_reverse, hlength, List.take_left, if_neg hstem]

/-- A name whose only dot opens it, or that has none, has no extension. -/
theorem splitName_none {w : List Char} (h : '.' ∉ w.tail) : splitName w = (w, none) := by
  have hlength : w.length - (w.reverse.takeWhile (· != '.')).length - 1 = 0 := by
    cases w with
    | nil => rfl
    | cons c w =>
        rw [List.reverse_cons, takeWhile_append_of_dot_notMem (by rwa [List.mem_reverse])]
        simp
        omega
  unfold splitName
  dsimp only
  rw [List.length_reverse, hlength, List.take_zero, if_pos rfl]

/-- A name with an extension is its stem, a dot and the extension. -/
theorem splitName_some {w stem ext : List Char} (h : splitName w = (stem, some ext)) :
    w = stem ++ '.' :: ext ∧ stem ≠ [] ∧ '.' ∉ ext := by
  by_cases hdot : '.' ∈ w.tail
  · -- The last dot is the first one from behind.
    obtain ⟨bs, as, hsplit, hbs⟩ := List.eq_append_cons_of_mem (List.mem_reverse.mpr hdot)
    have htail : w.tail = as.reverse ++ '.' :: bs.reverse := by
      rw [← List.reverse_reverse w.tail, hsplit]
      simp
    obtain ⟨c, hw⟩ : ∃ c, w = c :: w.tail := by
      cases w with
      | nil => cases hdot
      | cons c w => exact ⟨c, rfl⟩
    rw [htail] at hw
    have hname : splitName w = (c :: as.reverse, some bs.reverse) := by
      rw [hw]
      exact splitName_append (List.cons_ne_nil _ _) (by rwa [List.mem_reverse])
    rw [hname] at h
    cases h
    exact ⟨hw, List.cons_ne_nil _ _, by rwa [List.mem_reverse]⟩
  · rw [splitName_none hdot] at h
    cases h

/-! ## The last name of a path -/

section Last

variable {p : Path} {as w : List Char}

/-- What a path has before its parts is the beginning of its characters. -/
theorem lead_append_drop (cs : List Char) : lead cs ++ cs.drop (lead cs).length = cs := by
  unfold lead
  split <;> rfl

theorem lead_length_le (hopens : Opens as) (hw : Live w) : (lead (as ++ w)).length ≤ as.length := by
  rcases hopens with rfl | ⟨bs, rfl⟩
  · have hlead : lead ([] ++ w) = [] := by
      rw [List.nil_append]
      unfold lead
      split
      · exact absurd List.mem_cons_self hw.slash_notMem
      · exact absurd rfl hw.ne_dot
      · exact absurd (List.mem_cons_of_mem _ List.mem_cons_self) hw.slash_notMem
      · rfl
    exact Nat.le_of_eq (congrArg List.length hlead)
  · have hone : (lead (bs ++ ['/'] ++ w)).length ≤ 1 := by
      unfold lead
      split <;> simp
    rw [List.length_append]
    exact Nat.le_trans hone (Nat.le_add_left _ _)

theorem trimIdle_concat (ws : List (List Char)) (hw : Live w) : trimIdle (ws ++ [w]) = ws ++ [w] := by
  have hidle : isIdle w = false := by
    simp [isIdle, hw.ne_nil, hw.ne_dot]
  rw [trimIdle, List.reverse_append, List.reverse_singleton, List.singleton_append,
    List.dropWhile_cons_of_neg (by simp [hidle])]
  simp

/-- The parts of a path before its last name, whatever that name is. -/
theorem parts_eq (hopens : Opens as) (hw : Live w) (hp : p.chars = as ++ w) :
    ∃ ws, p.parts = ws ++ [w] ∧ ∀ v, lead p.chars ++ joinSlash (ws ++ [v]) = as ++ v := by
  have hle := lead_length_le hopens hw
  obtain ⟨ws, hsplit, hjoin⟩ := (hopens.drop hle).pieces
  refine ⟨ws, ?_, fun v => ?_⟩
  · rw [parts, hp, List.drop_append_of_le_length hle, hsplit w hw.slash_notMem, trimIdle_concat ws hw]
  · have hlead := lead_append_drop (as ++ w)
    rw [List.drop_append_of_le_length hle, ← List.append_assoc] at hlead
    rw [hjoin, hp, ← List.append_assoc, List.append_cancel_right hlead]

/-- The last name of a path is found. -/
theorem fileName?_eq (hopens : Opens as) (hw : Proper w) (hp : p.chars = as ++ w) :
    p.fileName? = some w := by
  obtain ⟨ws, hparts, _⟩ := parts_eq hopens hw.toLive hp
  rw [fileName?, hparts, List.getLast?_append]
  simp [hw.ne_dots]

/-- A name with another extension. -/
def rename (w ext : List Char) : List Char :=
  if ext = [] then (splitName w).1 else (splitName w).1 ++ '.' :: ext

/-- The last name of a path is renamed, and all before it stays. -/
theorem setExtension_eq (hopens : Opens as) (hw : Proper w) (hp : p.chars = as ++ w) (ext : List Char) :
    p.setExtension ext = ofChars (as ++ rename w ext) := by
  obtain ⟨ws, hparts, hjoin⟩ := parts_eq hopens hw.toLive hp
  unfold setExtension
  rw [fileName?_eq hopens hw hp, hparts]
  dsimp only
  rw [List.dropLast_concat, ofParts]
  exact congrArg ofChars (hjoin _)

/-- A path that ends in two dots has no name to rename. -/
theorem setExtension_dots (hopens : Opens as) (hp : p.chars = as ++ ['.', '.']) (ext : List Char) :
    p.setExtension ext = p := by
  obtain ⟨ws, hparts, _⟩ := parts_eq hopens ⟨by decide, by decide, by decide⟩ hp
  have hname : p.fileName? = none := by
    rw [fileName?, hparts, List.getLast?_append]
    rfl
  unfold setExtension
  rw [hname]

/-- What a source with this stem is renamed to. A stem of one dot leaves two dots, which name no entry. -/
def outputName (stem ext : List Char) : List Char :=
  if stem = ['.'] then ['.', '.'] else if ext = [] then stem else stem ++ '.' :: ext

/-- A path whose last name has an extension: another extension takes its place. -/
theorem withExtension?_eq {stem old ext : List Char} (hopens : Opens as)
    (hw : Proper (stem ++ '.' :: old)) (hstem : stem ≠ []) (hold : '.' ∉ old) (hext : '/' ∉ ext)
    (hp : p.chars = as ++ (stem ++ '.' :: old)) :
    p.withExtension? ext = some (ofChars (as ++ outputName stem ext)) := by
  have hextension : p.extension? = some old := by
    rw [extension?, fileName?_eq hopens hw hp]
    simp [splitName_append hstem hold]
  -- As many characters as the old extension has are cut from the end, so its dot stays.
  have hcut : p.chars.take (p.chars.length - old.length) = as ++ (stem ++ ['.']) := by
    have hchars : p.chars = as ++ (stem ++ ['.']) ++ old := by
      rw [hp]
      simp
    rw [hchars, List.length_append, Nat.add_sub_cancel, List.take_left]
  unfold withExtension?
  rw [if_neg (by simpa using hext), hextension]
  dsimp only
  rw [hcut]
  have hchars : (ofChars (as ++ (stem ++ ['.']))).chars = as ++ (stem ++ ['.']) := String.toList_ofList
  by_cases hdot : stem = ['.']
  · subst hdot
    rw [setExtension_dots hopens hchars]
    rfl
  · have hproper : Proper (stem ++ ['.']) := by
      refine ⟨⟨by simp, fun h => ?_, fun h => ?_⟩, fun h => ?_⟩
      · exact hstem (List.append_inj_left' h rfl)
      · refine hw.slash_notMem ?_
        rcases List.mem_append.mp h with h | h
        · exact List.mem_append_left _ h
        · cases List.mem_singleton.mp h
      · exact hdot (List.append_inj_left' h rfl)
    rw [setExtension_eq hopens hproper hchars, rename, splitName_append hstem (by simp), outputName,
      if_neg hdot]

end Last

end Respell.Path
