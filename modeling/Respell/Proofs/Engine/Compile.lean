import Respell.Engine.Compile
import Respell.Proofs.Engine.Check
import Respell.Proofs.Engine.Parse
import Respell.Proofs.Engine.Print

/-!
# The engine compiles

The engine accepts the programs that have no fault and refuses the others with their first one; it prints the
text of their pieces; and below 4 GiB it reads the programs that are read from places.
-/

namespace Respell

namespace Engine

open Text

theorem validate_eq (p : Program) : validate p = p.validate := by
  -- The three steps of the engine are three stretches of the list of faults.
  have hhoist : Settles (hoistStmts true p.body) p.pragmaScope
      (redeclarations p.pragmaScope (declaredNames true p.body)) p.scope := by
    rw [hoistStmts_eq]
    exact settles_declareAll _ _
  have hcheck : Finds (do
      let env ← entered (hoistStmts true p.body) p.pragmaScope
      checkStmts env .program p.body) _ [] := .inside hhoist (checkStmts_finds p.body p.scope .program [])
  have hvalidate : p.validate = (do verdict p.faults; return p.helpers) := by
    rw [Program.validate]
    cases p.faults <;> rfl
  rw [hvalidate, Program.faults, List.append_assoc, verdict_append, show verdict _ = _ from hcheck]
  simp only [validate, bind_assoc]
  rfl

theorem render_eq (p : Program) (helpers : List String) : render p helpers = p.render helpers := by
  rw [render, onto_bind, onto_write, p.onto_print, String.empty_append]
  rfl

variable {source : String}

/-- Below 4 GiB, the engine reads the program of a text, or refuses it with its first fault. -/
theorem analyze_eq (hshort : source.utf8ByteSize < UInt32.size) : analyze source = Respell.analyze source := by
  rw [← byteLength_toList] at hshort
  simp only [analyze, Respell.analyze, parse_eq hshort, validate_eq]

theorem compile_eq (hshort : source.utf8ByteSize < UInt32.size) (file : String) :
    compile file source = Respell.compile file source := by
  simp only [compile, Respell.compile, analyze_eq hshort, render_eq]

end Engine

end Respell
