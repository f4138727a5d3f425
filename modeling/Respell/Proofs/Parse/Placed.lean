import Respell.Proofs.Parse.Spots
import Respell.Proofs.Token.Session

/-!
# Parts are read where they stand

Every spot of a parsed program was read by the rules of the productions at a place of the source, and from
where that reading ended on, the tokens after the spot were read. The step is from a spot to the spots right
inside it: a rule says where each of its parts was read, and the readings of the parts after it make up
what follows.
-/

namespace Respell

open Text Respell.Parser

/-- The part was read from `p` to `q`: an expression as a whole or as a leading operand, a statement by
    its rule. -/
def Node.Read (colon : Colon) (p q : Place) : Node → Prop
  | .expr e => ∃ n threshold, Grows (level n) colon threshold p e q
  | .stmt s => ∃ n, StmtRule (level n) p s q

/-- The part was read where it stands, and the tokens after it from there up to `last`. -/
def Spot.Read (last : Place) (s : Spot) : Prop :=
  ∃ p q, s.node.Read s.colon p q ∧ Reading q s.after last

/-- All the spots were read. -/
abbrev AllRead (last : Place) (spots : List Spot) : Prop := ∀ s ∈ spots, s.Read last

theorem allRead_append {last : Place} {ss ss' : List Spot} (h : AllRead last ss) (h' : AllRead last ss') :
    AllRead last (ss ++ ss') := List.forall_mem_append.mpr ⟨h, h'⟩

namespace Parser

variable {α : Type} {n : Nat} {colon : Colon} {threshold : Precedence} {p q last : Place}
  {after : List Token}

theorem read_of_expression {e : Expr} (h : (level n).expression colon threshold p = .ok (e, q))
    (hafter : Reading q after last) : AllRead last (e.spot colon after) := by
  cases n with
  | zero => exact (tooDeep_not_ok h).elim
  | succ n => exact List.forall_mem_singleton.mpr ⟨p, q, ⟨n, threshold, expression_grows h⟩, hafter⟩

theorem read_of_statement {s : Stmt} (h : (level n).statement p = .ok (s, q))
    (hafter : Reading q after last) : AllRead last (s.spot after) := by
  cases n with
  | zero => exact (tooDeep_not_ok h).elim
  | succ n => exact List.forall_mem_singleton.mpr ⟨p, q, ⟨n, statement_ok h⟩, hafter⟩

section Lists

variable {item : Parser α} {tokens : α → List Token} {spots : List Token → α → List Spot}
  (htokens : ∀ {p a q}, item p = .ok (a, q) → Reading p (tokens a) q)
  (hspots : ∀ {p a q after}, item p = .ok (a, q) → Reading q after last → AllRead last (spots after a))
include htokens hspots

theorem CommaRounds.allRead {items : Separated α} (h : CommaRounds item p items q)
    (hafter : Reading q after last) : AllRead last (items.spots tokens spots after) := by
  induction h with
  | nil => exact List.forall_mem_nil _
  | one ha => exact hspots ha hafter
  | more ha hc hrest ih =>
      have hmore := Reading.cons (taken_of_expect hc) ((hrest.reading htokens).append hafter)
      exact allRead_append (hspots ha hmore) (ih hafter)

theorem Rounds.allRead {as : List α} (h : Rounds item p as q) (hafter : Reading q after last) :
    AllRead last (listSpots tokens spots after as) := by
  induction h with
  | nil => exact List.forall_mem_nil _
  | cons ha hrest ih =>
      exact allRead_append (hspots ha ((hrest.reading htokens).append hafter)) (ih hafter)

end Lists

theorem exprs_allRead {es : Separated Expr}
    (h : CommaRounds ((level n).expression colon .lowest) p es q) (hafter : Reading q after last) :
    AllRead last (exprSpots colon after es) :=
  h.allRead (level_reads n).expression read_of_expression hafter

theorem stmts_allRead {ss : List Stmt} (h : Rounds (level n).statement p ss q)
    (hafter : Reading q after last) : AllRead last (stmtSpots after ss) :=
  h.allRead (level_reads n).statement read_of_statement hafter

theorem enclosed_allRead {o c : Punct} {e : Enclosed} (h : enclosed (level n) colon o c p = .ok (e, q))
    (hafter : Reading q after last) : AllRead last (e.spots colon after) := by
  obtain ⟨p₁, p₂, _, hitems, hc⟩ := enclosed_ok h
  exact exprs_allRead hitems (.cons (taken_of_expect hc) hafter)

theorem block_allRead {b : Block} (h : block (level n) p = .ok (b, q)) (hafter : Reading q after last) :
    AllRead last (b.spots after) := by
  obtain ⟨p₁, p₂, _, hbody, hc⟩ := block_ok h
  exact stmts_allRead hbody (.cons (taken_of_expect hc) hafter)

theorem finishFunction_allRead {keyword name : Option Token} {list : Enclosed}
    {named : Option Receiver} {f : Func}
    (h : finishFunction (level n) keyword name list named p = .ok (f, q)) (hafter : Reading q after last) :
    AllRead last (f.body.spots after) := by
  obtain ⟨items, body, _, hbody, rfl⟩ := finishFunction_ok h
  exact block_allRead hbody hafter

theorem functionRest_allRead {keyword name : Option Token} {f : Func}
    (h : functionRest (level n) colon keyword name p = .ok (f, q)) (hafter : Reading q after last) :
    AllRead last (f.body.spots after) := by
  obtain ⟨list, p₁, named, p₂, _, _, h⟩ := functionRest_ok h
  exact finishFunction_allRead h hafter

theorem ParenRule.allRead {h : Head} (hrule : ParenRule (level n) colon p h q)
    (hafter : Reading q after last) : AllRead last (h.spots colon after) := by
  cases hrule with
  | function _ _ _ hf => exact finishFunction_allRead hf hafter
  | bound _ _ _ _ _ _ hf => exact finishFunction_allRead hf hafter
  | arrow _ _ _ hbody => exact read_of_expression hbody hafter
  | group hlist he _ _ _ _ _ =>
      obtain ⟨p₁, p₂, _, hitems, hc⟩ := enclosed_ok hlist
      rw [he] at hitems
      cases hitems with
      | one hinner => exact read_of_expression hinner (.cons (taken_of_expect hc) hafter)

theorem entry_allRead {e : Entry} (h : entry (level n) colon p = .ok (e, q))
    (hafter : Reading q after last) : AllRead last (e.spots colon after) := by
  obtain ⟨p₁, p₂, _, _, hvalue⟩ := entry_ok h
  exact read_of_expression hvalue hafter

theorem HeadRule.allRead {h : Head} (hrule : HeadRule (level n) colon p h q)
    (hafter : Reading q after last) : AllRead last (h.spots colon after) := by
  cases hrule with
  | constant _ _ => exact List.forall_mem_nil _
  | quoted _ _ _ => exact List.forall_mem_nil _
  | ident _ => exact List.forall_mem_nil _
  | pass _ _ => exact List.forall_mem_nil _
  | array helements => exact enclosed_allRead helements hafter
  | object _ hentries hc =>
      have hclosing := Reading.cons (taken_of_expect hc) hafter
      exact hentries.allRead (entry_reading (level_reads n)) entry_allRead hclosing
  | construct _ _ _ hargs => exact enclosed_allRead hargs hafter
  | unary _ _ hoperand => exact read_of_expression hoperand hafter
  | paren hrule => exact hrule.allRead hafter
  | simpleArrow _ hbody => exact read_of_expression hbody hafter
  | function _ _ hf => exact functionRest_allRead hf hafter

theorem SuffixRule.allRead {s : Suffix} (hrule : SuffixRule (level n) colon p s q)
    (hafter : Reading q after last) : AllRead last (s.spots colon after) := by
  cases hrule with
  | binary _ _ _ hright => exact read_of_expression hright hafter
  | ternary _ _ hconsequent hc halternate =>
      have hcolon := Reading.cons (taken_of_expect hc)
        (((level_reads n).expression halternate).append hafter)
      exact allRead_append (read_of_expression hconsequent hcolon)
        (read_of_expression halternate hafter)
  | call hargs => exact enclosed_allRead hargs hafter
  | invoke _ _ _ hargs => exact enclosed_allRead hargs hafter
  | property _ _ _ _ _ => exact List.forall_mem_nil _
  | index _ hposition hc => exact read_of_expression hposition (.cons (taken_of_expect hc) hafter)
  | prototype _ _ => exact List.forall_mem_nil _

/-- The leading operand of what has grown was read up to where the suffix begins. -/
theorem Grows.allRead {e : Expr} (h : Grows (level n) colon threshold p e q)
    (hafter : Reading q after last) : AllRead last (e.spots colon after) := by
  have hleading {leading : Expr} {s : Suffix} {r : Place}
      (hgrows : Grows (level n) colon threshold p leading r) (hrule : SuffixRule (level n) colon r s q) :
      AllRead last ((Expr.suffix leading s).spots colon after) := by
    have hsuffix := (hrule.reading (level_reads n)).append hafter
    exact allRead_append (List.forall_mem_singleton.mpr ⟨p, r, ⟨n, threshold, hgrows⟩, hsuffix⟩)
      (hrule.allRead hafter)
  cases h with
  | head hrule => exact hrule.allRead hafter
  | round hgrows hround =>
      cases hround with
      | operator _ _ _ hrule => exact hleading hgrows hrule
      | tight _ _ hrule => exact hleading hgrows hrule
      | rest _ _ => exact List.forall_mem_nil _

theorem guarded_allRead {w : Word} {g : Guarded} (h : guarded (level n) w p = .ok (g, q))
    (hafter : Reading q after last) : AllRead last (g.spots after) := by
  obtain ⟨p₁, p₂, p₃, p₄, _, _, htest, hc, hbody⟩ := guarded_ok h
  have hrest := Reading.cons (taken_of_expect hc)
    ((block_reading (level_reads n) hbody).append hafter)
  exact allRead_append (read_of_expression htest hrest) (block_allRead hbody hafter)

theorem LadderRule.allRead {l : Ladder} (hrule : LadderRule (level n) p l q)
    (hafter : Reading q after last) : AllRead last (l.spots after) := by
  induction hrule with
  | done => exact List.forall_mem_nil _
  | otherwise _ hbody => exact block_allRead hbody hafter
  | branch _ hnext hothers ih =>
      have hrest := (hothers.reading (level_reads n)).append hafter
      exact allRead_append (guarded_allRead hnext hrest) (ih hafter)

theorem decl_allRead {d : Decl} (h : decl (level n) p = .ok (d, q)) (hafter : Reading q after last) :
    AllRead last (d.spots after) := by
  obtain ⟨p₁, _, hinit⟩ := decl_ok h
  obtain ⟨name, init⟩ := d
  rcases hinit with ⟨equals, value, p₂, rfl, _, hvalue⟩ | ⟨rfl, rfl⟩
  · exact read_of_expression hvalue hafter
  · exact List.forall_mem_nil _

theorem varList_allRead {l : VarList} (h : varList (level n) p = .ok (l, q))
    (hafter : Reading q after last) : AllRead last (l.spots after) := by
  obtain ⟨p₁, _, hitems⟩ := varList_ok h
  exact hitems.allRead (decl_reading (level_reads n)) decl_allRead hafter

theorem ForInitRule.allRead {i : ForInit} (hrule : ForInitRule (level n) p i q)
    (hafter : Reading q after last) : AllRead last (i.spots after) := by
  cases hrule with
  | vars hlist => exact varList_allRead hlist hafter
  | exprs hitems => exact exprs_allRead hitems hafter

theorem clause_allRead {c : Clause} (h : clause (level n) p = .ok (c, q))
    (hafter : Reading q after last) : AllRead last (c.spots after) := by
  obtain ⟨p₁, p₂, hhead, hcolon, hbody⟩ := clause_ok h
  obtain ⟨keyword, test, colon, body⟩ := c
  cases hhead with
  | case _ htest =>
      have hrest := Reading.cons (taken_of_expect hcolon)
        ((reading_of_rounds (level_reads n) hbody).append hafter)
      exact allRead_append (read_of_expression htest hrest) (stmts_allRead hbody hafter)
  | default _ => exact stmts_allRead hbody hafter

theorem StmtRule.allRead {s : Stmt} (hrule : StmtRule (level n) p s q)
    (hafter : Reading q after last) : AllRead last (s.spots after) := by
  have hreads := level_reads n
  cases hrule with
  | expr _ _ hvalue hs => exact read_of_expression hvalue (.cons (taken_of_expect hs) hafter)
  | labeled _ _ _ _ hbody => exact read_of_statement hbody hafter
  | empty _ => exact List.forall_mem_nil _
  | conditional hfirst hothers =>
      exact allRead_append (guarded_allRead hfirst ((hothers.reading hreads).append hafter))
        (hothers.allRead hafter)
  | «while» hloop => exact guarded_allRead hloop hafter
  | «for» _ _ hinit hfirst htest hsecond hupdate hc hbody =>
      have hrest₃ := Reading.cons (taken_of_expect hc) ((block_reading hreads hbody).append hafter)
      have hrest₂ := Reading.cons (taken_of_expect hsecond)
        ((reading_of_commaRounds hreads hupdate).append hrest₃)
      have hrest₁ := Reading.cons (taken_of_expect hfirst)
        ((reading_of_commaRounds hreads htest).append hrest₂)
      exact allRead_append (allRead_append (allRead_append (hinit.allRead hrest₁)
        (exprs_allRead htest hrest₂)) (exprs_allRead hupdate hrest₃)) (block_allRead hbody hafter)
  | forIn _ _ _ _ _ hobject hc hbody =>
      have hrest := Reading.cons (taken_of_expect hc) ((block_reading hreads hbody).append hafter)
      exact allRead_append (read_of_expression hobject hrest) (block_allRead hbody hafter)
  | jump _ _ _ _ => exact List.forall_mem_nil _
  | returnNothing _ _ => exact List.forall_mem_nil _
  | «return» _ hvalue hs => exact read_of_expression hvalue (.cons (taken_of_expect hs) hafter)
  | throw _ hvalue hs => exact read_of_expression hvalue (.cons (taken_of_expect hs) hafter)
  | vars hlist hs => exact varList_allRead hlist (.cons (taken_of_expect hs) hafter)
  | function _ _ hf => exact functionRest_allRead hf hafter
  | switch _ _ hsubject hc hob hclauses hcb =>
      have hclosing := Reading.cons (taken_of_expect hcb) hafter
      have hrest := (hclauses.reading (clause_reading hreads)).append hclosing
      rw [← clausesTokens_eq] at hrest
      exact allRead_append
        (read_of_expression hsubject (.cons (taken_of_expect hc) (.cons (taken_of_expect hob) hrest)))
        (hclauses.allRead (clause_reading hreads) clause_allRead hclosing)
  | block hb => exact block_allRead hb hafter
  | «include» _ _ => exact List.forall_mem_nil _
  | declare _ _ => exact List.forall_mem_nil _

end Parser

/-- What stands right inside a spot that was read was read. -/
theorem Spot.Read.parts {last : Place} {s : Spot} (h : s.Read last) : AllRead last s.parts := by
  obtain ⟨node, colon, after⟩ := s
  obtain ⟨p, q, hnode, hafter⟩ := h
  cases node with
  | expr e =>
      obtain ⟨n, threshold, hgrows⟩ := hnode
      exact hgrows.allRead hafter
  | stmt s =>
      obtain ⟨n, hrule⟩ := hnode
      exact hrule.allRead hafter

/-- A program was read from its first token to a place where every spot of it was read. -/
theorem exists_allRead {limit : Nat} {source : List Char} {x : Program}
    (h : parseProgramWithin limit source = .ok x) :
    ∃ last, Reading (scanTrivia (.start source)).2 x.tokens last ∧ ∀ s, x.Stands s → s.Read last := by
  obtain ⟨last, hrun⟩ := program_of_parse h
  obtain ⟨p₁, _, hbody, hend⟩ := program_ok hrun
  have hlast := Reading.single (taken_of_expect hend)
  refine ⟨last, (reading_of_rounds (level_reads limit) hbody).append hlast, ?_⟩
  intro s hs
  induction hs with
  | top hmem => exact stmts_allRead hbody hlast _ hmem
  | inside _ hmem ih => exact ih.parts _ hmem

/-- The expression was read on some nesting level, as a whole or as a leading operand. -/
def Parser.Arises (e : Expr) : Prop :=
  ∃ n colon threshold p q, Grows (level n) colon threshold p e q

/-- Every expression of a parsed program was read as a whole or as a leading operand. -/
theorem arises_of_parse {limit : Nat} {source : List Char} {x : Program}
    (h : parseProgramWithin limit source = .ok x) : ∀ e ∈ x.subexprs, Arises e := by
  intro e he
  obtain ⟨last, _, hread⟩ := exists_allRead h
  obtain ⟨colon, after, hstands⟩ := x.holds_of_mem_subexprs he
  obtain ⟨p, q, ⟨n, threshold, hgrows⟩, _⟩ := hread _ hstands
  exact ⟨n, colon, threshold, p, q, hgrows⟩

/-! ## What was read -/

theorem Parser.Grows.formed {n : Nat} {colon : Colon} {threshold : Precedence} {p q : Place} {e : Expr}
    (h : Grows (level n) colon threshold p e q) : e.Formed := by
  induction h with
  | head hrule => exact hrule.formed (level_forms n)
  | round _ hrule ih => exact hrule.formed (level_forms n) ih

theorem Parser.Grows.reading {n : Nat} {colon : Colon} {threshold : Precedence} {p q : Place} {e : Expr}
    (h : Grows (level n) colon threshold p e q) : Reading p e.tokens q := by
  induction h with
  | head hrule => exact hrule.reading (level_reads n)
  | round _ hrule ih => exact hrule.reading (level_reads n) ih

/-- The tokens of the part are of the kinds their places ask for. -/
def Node.Formed : Node → Prop
  | .expr e => e.Formed
  | .stmt s => s.Formed

theorem Spot.Read.formed {last : Place} {s : Spot} (h : s.Read last) : s.node.Formed := by
  obtain ⟨node, colon, after⟩ := s
  obtain ⟨p, q, hnode, _⟩ := h
  cases node with
  | expr e =>
      obtain ⟨n, threshold, hgrows⟩ := hnode
      exact hgrows.formed
  | stmt s =>
      obtain ⟨n, hrule⟩ := hnode
      exact hrule.formed (level_forms n)

/-! ## Places of readings -/

theorem Reading.within {source : List Char} {p q : Place} {ts : List Token} (h : Reading p ts q)
    (hp : p.Within source) : q.Within source := by
  obtain ⟨before, hsource, hoffset⟩ := hp
  refine ⟨before ++ (String.join (ts.map Token.source)).toList, ?_, ?_⟩
  · rw [List.append_assoc, ← h.rest, hsource]
  · rw [h.offset, hoffset, byteLength_append, byteLength_toList]

/-- Two readings of the same tokens up to one place began at one place. -/
theorem Reading.begin_eq {p p' q : Place} {ts : List Token} (h : Reading p ts q)
    (h' : Reading p' ts q) : p = p' := by
  have hrest : p.rest = p'.rest := by rw [h.rest, h'.rest]
  have hoffset : p.offset = p'.offset := by
    have := h.offset
    have := h'.offset
    omega
  cases p
  cases p'
  simp_all

/-- A reading of the last tokens of a program begins at a place of its source. -/
theorem within_of_suffix {source : List Char} {p last : Place} {all ts : List Token}
    (hall : Reading (scanTrivia (.start source)).2 all last) (hts : ts <:+ all)
    (h : Reading p ts last) : p.Within source := by
  obtain ⟨before, rfl⟩ := hts
  obtain ⟨p', hbefore, hts⟩ := hall.split
  rw [h.begin_eq hts]
  exact hbefore.within ((Place.Within.start source).advance _)

end Respell
