import Respell.Proofs.Output.Lines
import Respell.Proofs.Output.Rescan
import Respell.Proofs.Parse.Limit
import Respell.Proofs.Scope.Contained
import Respell.Proofs.Scope.Order

/-!
# The helpers after a program

The output of an accepted text is its program, written without helpers, and then the text of each helper that an
`#include` of the program names. The helpers are collected from the program's own statements; that none
is missed follows from the rule that pragmas stand nowhere else. They come in the order in which the text
first names them, each once.
-/

namespace Respell

open Text

/-! ## What a program includes -/

/-- The name that an item of a pragma gives. -/
def PragmaItem.nameToken : PragmaItem → Token
  | .single name => name
  | .group _ name => name

/-- An `#include` of the program, at any depth, lists the token. -/
def Program.Includes (x : Program) (t : Token) : Prop :=
  ∃ p item, x.Contains (.include p) ∧ item ∈ p.items.items ∧ item.nameToken = t

/-- The tokens that a statement lists if it is an `#include`. -/
def Stmt.includedTokens : Stmt → List Token
  | .include p => p.items.items.map PragmaItem.nameToken
  | _ => []

section WellScoped

variable {x : Program} (h : x.WellScoped)
include h

/-- What is included anywhere is listed by a statement of the program itself. -/
theorem Program.WellScoped.includes_iff {t : Token} :
    x.Includes t ↔ t ∈ x.body.flatMap Stmt.includedTokens := by
  rw [List.mem_flatMap]
  constructor
  · rintro ⟨p, item, hp, hitem, rfl⟩
    exact ⟨.include p, hp.include_direct h.sites_sound, List.mem_map.mpr ⟨item, hitem, rfl⟩⟩
  · rintro ⟨s, hs, ht⟩
    cases s with
    | «include» p =>
        obtain ⟨item, hitem, rfl⟩ := List.mem_map.mp ht
        have hwithin : .include p ∈ stmtsWithin x.body := by
          rw [stmtsWithin_eq]
          exact List.mem_flatMap.mpr ⟨_, hs, List.mem_singleton.mpr rfl⟩
        exact ⟨p, item, .body hwithin, hitem, rfl⟩
    | _ => cases ht

/-- No item of an `#include` is a group, so each gives its own name and no other. -/
theorem Program.WellScoped.includedNames_eq :
    x.body.flatMap Stmt.includedNames = (x.body.flatMap Stmt.includedTokens).map Token.text := by
  rw [List.map_flatMap, List.flatMap_def, List.flatMap_def]
  congr 1
  refine List.map_congr_left fun s hs => ?_
  cases s with
  | «include» p =>
      have hitem : ∀ item ∈ p.items.items, item.names = [item.nameToken.text] := by
        intro item hmem
        obtain ⟨name, rfl, _⟩ := h.helpers_exist p hs item hmem
        rfl
      rw [Stmt.includedNames, Stmt.includedTokens, List.map_map, List.flatMap_def,
        List.map_congr_left hitem, ← List.flatMap_def, List.map_eq_flatMap]
      rfl
  | _ => rfl

/-- What is included anywhere has a helper. -/
theorem Program.WellScoped.known_of_includes {t : Token} (ht : x.Includes t) :
    Helper.isKnown t.text = true := by
  obtain ⟨p, item, hp, hitem, rfl⟩ := ht
  obtain ⟨name, rfl, hknown⟩ := h.helpers_exist p (hp.include_direct h.sites_sound) item hitem
  exact (Helper.isKnown_iff _).mpr hknown

/-- What is included anywhere is declared nowhere in the program's own scope. -/
theorem Program.WellScoped.fresh_of_includes {t : Token} (ht : x.Includes t) :
    t.text ∉ (Scope.program x).declared := by
  obtain ⟨p, item, hp, hitem, rfl⟩ := ht
  have hp := hp.include_direct h.sites_sound
  obtain ⟨name, rfl, _⟩ := h.helpers_exist p hp item hitem
  intro hdeclared
  exact h.declared_fresh _ hdeclared ⟨p, .inl hp, _, hitem, rfl⟩

/-- The helpers of the program are what it includes. -/
theorem Program.WellScoped.mem_helpers_iff {n : String} :
    n ∈ x.helpers ↔ ∃ t, x.Includes t ∧ t.text = n := by
  rw [Program.helpers, mem_foldl_addName, h.includedNames_eq, List.mem_map]
  simp [h.includes_iff]

end WellScoped

/-! ## Names in the order of the text -/

theorem Separated.nameTokens_sublist : ∀ s : Separated PragmaItem,
    (s.items.map PragmaItem.nameToken).Sublist (s.tokens PragmaItem.tokens) := by
  have hitem (item : PragmaItem) : [item.nameToken].Sublist item.tokens := by
    cases item with
    | single name => exact List.Sublist.refl _
    | group colon name => exact List.sublist_cons_self _ _
  intro s
  induction s with
  | nil => exact List.Sublist.refl _
  | one item => exact hitem item
  | more item comma rest ih => exact (hitem item).append (ih.cons comma)

theorem Stmt.includedTokens_sublist (s : Stmt) : s.includedTokens.Sublist s.tokens := by
  cases s with
  | «include» p =>
      exact (p.items.nameTokens_sublist.trans (List.sublist_append_left _ _)).cons _
  | _ => exact List.nil_sublist _

/-- The tokens that a parsed program lists to include come in the order of the text. -/
theorem includedTokens_increase {limit : Nat} {source : List Char} {x : Program}
    (hshort : byteLength source < UInt32.size) (h : parseProgramWithin limit source = .ok x) :
    (x.body.flatMap Stmt.includedTokens).Pairwise (·.pos < ·.pos) := by
  refine (tokens_increase hshort h).sublist ?_
  rw [Program.tokens, stmtsTokens_eq]
  refine List.Sublist.trans ?_ (List.sublist_append_left _ _)
  induction x.body with
  | nil => exact List.Sublist.refl _
  | cons s ss ih => exact s.includedTokens_sublist.append ih

/-! ## The order of first mentions -/

/-- One of the tokens is the name `a`, and stands before all that are the name `b`. -/
def NamedBefore (ts : List Token) (a b : String) : Prop :=
  ∃ t ∈ ts, t.text = a ∧ ∀ u ∈ ts, u.text = b → t.pos < u.pos

/-- The names of tokens, each once. -/
def collectNames (ts : List Token) : List String := (ts.map Token.text).foldl addName []

theorem mem_collectNames {ts : List Token} {n : String} :
    n ∈ collectNames ts ↔ ∃ t ∈ ts, t.text = n := by
  simp [collectNames, mem_foldl_addName]

theorem collectNames_concat (ts : List Token) (t : Token) :
    collectNames (ts ++ [t]) = addName (collectNames ts) t.text := by
  simp [collectNames]

/-- Collecting one more name keeps the order of first mentions, if it stands after the names before. -/
theorem namedBefore_concat {ts : List Token} {t : Token} (hlast : ∀ u ∈ ts, u.pos < t.pos)
    (h : (collectNames ts).Pairwise (NamedBefore ts)) :
    (collectNames (ts ++ [t])).Pairwise (NamedBefore (ts ++ [t])) := by
  -- What was before another name still is: the one new mention comes last.
  have hkeep {a b : String} (hab : NamedBefore ts a b) : NamedBefore (ts ++ [t]) a b := by
    obtain ⟨u, hu, hua, hub⟩ := hab
    refine ⟨u, List.mem_append_left _ hu, hua, fun v hv hvb => ?_⟩
    rcases List.mem_append.mp hv with hv | hv
    · exact hub v hv hvb
    · exact List.mem_singleton.mp hv ▸ hlast u hu
  rw [collectNames_concat, addName]
  split
  · exact h.imp hkeep
  · next hnew =>
      rw [List.pairwise_append]
      refine ⟨h.imp hkeep, List.pairwise_singleton _ _, fun a ha b hb => ?_⟩
      obtain rfl := List.mem_singleton.mp hb
      obtain ⟨u, hu, rfl⟩ := mem_collectNames.mp ha
      refine ⟨u, List.mem_append_left _ hu, rfl, fun v hv htext => ?_⟩
      rcases List.mem_append.mp hv with hv | hv
      · exact absurd (mem_collectNames.mpr ⟨v, hv, htext⟩) hnew
      · exact List.mem_singleton.mp hv ▸ hlast u hu

/-- Names that are collected from tokens in the order of their positions are in the order of their first
    mentions. -/
theorem namedBefore_collectNames {ts : List Token} (hts : ts.Pairwise (·.pos < ·.pos)) :
    (collectNames ts).Pairwise (NamedBefore ts) := by
  -- The induction is on what is still to come; `done` is what was collected.
  have hrun : ∀ done rest : List Token, (done ++ rest).Pairwise (·.pos < ·.pos) →
      (collectNames done).Pairwise (NamedBefore done) →
      (collectNames (done ++ rest)).Pairwise (NamedBefore (done ++ rest)) := by
    intro done rest
    induction rest generalizing done with
    | nil =>
        intro _ hdone
        rwa [List.append_nil]
    | cons t rest ih =>
        intro hpos hdone
        rw [List.append_cons] at hpos ⊢
        have hlast := (List.pairwise_append.mp (List.pairwise_append.mp hpos).1).2.2
        exact ih _ hpos (namedBefore_concat (fun u hu => hlast u hu t (List.mem_singleton.mpr rfl)) hdone)
  exact hrun [] ts hts .nil

/-! ## What is appended -/

/-- The helpers are those that the program includes, at any depth: each once, in the order in which
    the text first names them. -/
structure Program.IncludesInOrder (x : Program) (helpers : List Helper) : Prop where
  /-- They are helpers of the table. -/
  known : ∀ helper ∈ helpers, helper ∈ Helper.all
  /-- Their names are those that are included. -/
  named : ∀ n, n ∈ helpers.map Helper.name ↔ ∃ t, x.Includes t ∧ t.text = n
  /-- None of them comes twice. -/
  once : (helpers.map Helper.name).Nodup
  /-- What comes earlier is named before all mentions of what comes later. -/
  ordered : helpers.Pairwise fun a b =>
    ∃ t, x.Includes t ∧ t.text = a.name ∧ ∀ u, x.Includes u → u.text = b.name → t.pos < u.pos

theorem Helper.find?_some {n : String} {helper : Helper} (h : Helper.find? n = some helper) :
    helper ∈ Helper.all ∧ helper.name = n :=
  ⟨List.mem_of_find?_eq_some h, by simpa using List.find?_some h⟩

/-- Known names are the names of their helpers. -/
theorem name_filterMap_find? {names : List String} (h : ∀ n ∈ names, Helper.isKnown n = true) :
    (names.filterMap Helper.find?).map Helper.name = names := by
  induction names with
  | nil => rfl
  | cons n names ih =>
      obtain ⟨helper, hfind⟩ := Option.isSome_iff_exists.mp (h n List.mem_cons_self)
      rw [List.filterMap_cons_some hfind, List.map_cons, (Helper.find?_some hfind).2,
        ih fun m hm => h m (List.mem_cons_of_mem _ hm)]

theorem helperText_eq (names : List String) :
    helperText names = String.join ((names.filterMap Helper.find?).map Helper.source) := by
  rw [helperText, List.map_filterMap]

/-- The helpers that are found for an accepted program are those it includes, in order. -/
theorem includesInOrder {limit : Nat} {source : List Char} {x : Program}
    (hshort : byteLength source < UInt32.size) (hparse : parseProgramWithin limit source = .ok x)
    (hscoped : x.WellScoped) :
    x.IncludesInOrder (x.helpers.filterMap Helper.find?) := by
  have hnames : (x.helpers.filterMap Helper.find?).map Helper.name = x.helpers := by
    refine name_filterMap_find? fun n hn => ?_
    obtain ⟨t, ht, rfl⟩ := hscoped.mem_helpers_iff.mp hn
    exact hscoped.known_of_includes ht
  refine ⟨fun helper hmem => ?_, fun n => ?_, ?_, ?_⟩
  · obtain ⟨n, _, hfind⟩ := List.mem_filterMap.mp hmem
    exact (Helper.find?_some hfind).1
  · rw [hnames, hscoped.mem_helpers_iff]
  · rw [hnames]
    exact nodup_foldl_addName .nil
  · have hordered := namedBefore_collectNames (includedTokens_increase hshort hparse)
    rw [collectNames, ← hscoped.includedNames_eq, ← Program.helpers, ← hnames, List.pairwise_map]
      at hordered
    refine hordered.imp ?_
    rintro a b ⟨t, ht, hta, hbefore⟩
    exact ⟨t, hscoped.includes_iff.mpr ht, hta, fun u hu => hbefore u (hscoped.includes_iff.mp hu)⟩

/-- The output of an accepted text is its program without helpers, and after it the helpers that it
    includes at any depth, each once and in the order of their first mentions. The program itself declares
    none of them. -/
theorem helpers_appended {file source out : String} (hshort : source.utf8ByteSize < UInt32.size)
    (h : Engine.compile file source = .ok out) :
    ∃ x helpers, Engine.parse source.toList = .ok x ∧ x.IncludesInOrder helpers ∧
      out = x.render [] ++ String.join (helpers.map Helper.source) ∧
      ∀ t, x.Includes t → t.text ∉ (Scope.program x).declared := by
  obtain ⟨x, names, _, hrun, rfl⟩ := Engine.compile_ok hshort h
  obtain ⟨hparse, hvalidate⟩ := analyze_ok hrun
  rw [← byteLength_toList] at hshort
  rw [Engine.parse_eq hshort]
  obtain ⟨hfaults, rfl⟩ := x.validate_ok_iff.mp hvalidate
  have hscoped := x.faults_eq_nil_iff.mp hfaults
  refine ⟨x, _, hparse, includesInOrder hshort hparse hscoped, ?_, fun t => hscoped.fresh_of_includes⟩
  rw [Program.render, Program.render, helperText_eq, helperText_eq]
  simp

/-- A source that includes helpers before and after their use, one of them twice. -/
def includingSource : String :=
  "each(keys(o), f);\n#include keys, each;\nfunction f(k) \x7b return undef(k); \x7d\n" ++
    "#include undef, keys;\n#declare o;"

/-- Its output: the statements, and then the three helpers. -/
def includingOutput : String :=
  "each(keys(o), f);\n/* #include keys, each; */  \nfunction f(k) \x7b return undef(k); \x7d\n" ++
    "/* #include undef, keys; */  \n/* #declare o; */ " ++
    "\nfunction keys(o) \x7b\n\tvar r = [], k;\n\tfor (k in o) \x7b\n\t\tif (o.hasOwnProperty(k)) \x7b\n" ++
    "\t\t\tr.push(k);\n\t\t\x7d\n\t\x7d\n\treturn r;\n\x7d\n" ++
    "\nfunction each(ar, f) \x7b\n\tvar i;\n\tfor (i = 0; i < ar.length; i++) \x7b\n\t\tf(ar[i], i);\n\t\x7d\n\x7d\n" ++
    "\nfunction undef(x) \x7b\n\treturn typeof x === 'undefined';\n\x7d\n"

theorem helpers_appended_includingSource :
    includingSource.utf8ByteSize < UInt32.size ∧ Engine.compile "including" includingSource = .ok includingOutput ∧
      (∃ x, Engine.parse includingSource.toList = .ok x ∧
        x.IncludesInOrder [Helper.keys, Helper.each, Helper.undef] ∧
        includingOutput = x.render [] ++ Helper.keys.source ++ Helper.each.source ++ Helper.undef.source) ∧
      ∃ x helpers, Engine.parse includingSource.toList = .ok x ∧ x.IncludesInOrder helpers ∧
        includingOutput = x.render [] ++ String.join (helpers.map Helper.source) ∧
        ∀ t, x.Includes t → t.text ∉ (Scope.program x).declared := by
  have hshort : includingSource.utf8ByteSize < UInt32.size := by decide +kernel
  have hrun : (analyze includingSource).toOption.map (fun r => (r.2, r.1.render r.2,
      r.1.render [] ++ Helper.keys.source ++ Helper.each.source ++ Helper.undef.source)) =
        some (["keys", "each", "undef"], includingOutput, includingOutput) := by
    decide +kernel
  obtain ⟨⟨x, names⟩, hanalyze, hvalues⟩ := ok_of_toOption hrun
  obtain ⟨rfl, hrest⟩ := Prod.mk.inj hvalues
  obtain ⟨hrender, houtput⟩ := Prod.mk.inj hrest
  have hcompile := Engine.compile_of_analyze hshort "including" hanalyze
  rw [hrender] at hcompile
  obtain ⟨hparse, hvalidate⟩ := analyze_ok hanalyze
  obtain ⟨hfaults, hnames⟩ := x.validate_ok_iff.mp hvalidate
  have hordered := includesInOrder (byteLength_toList _ ▸ hshort) hparse (x.faults_eq_nil_iff.mp hfaults)
  rw [← hnames] at hordered
  refine ⟨hshort, hcompile, ⟨x, ?_, hordered, houtput.symm⟩, helpers_appended hshort hcompile⟩
  rw [Engine.parse_eq (byteLength_toList _ ▸ hshort)]
  exact hparse

end Respell
