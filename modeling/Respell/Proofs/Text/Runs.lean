/-!
# Runs of characters

A run is what `takeWhile` takes of a text. These lemmas say where a run ends when the text goes on in another
way.
-/

namespace Respell.Text

variable {p : Char → Bool} {w r s : List Char}

/-- One of some characters outside of a class does not belong to it. -/
theorem eq_false_of_mem {c : Char} {cs : List Char} (hc : c ∈ cs) (hcs : cs.all (fun d => !p d) = true) :
    p c = false := by
  simpa using List.all_eq_true.mp hcs c hc

/-- A character of a class is none of some outside of it. -/
theorem notMem_of_class {c : Char} {cs : List Char} (hc : p c = true)
    (hcs : cs.all (fun d => !p d) = true) : c ∉ cs := by
  intro hmem
  rw [eq_false_of_mem hmem hcs] at hc
  cases hc

theorem takeWhile_eq_nil (hr : ∀ c ∈ r.head?, p c = false) : r.takeWhile p = [] := by
  cases r with
  | nil => rfl
  | cons c r => exact List.takeWhile_cons_of_neg (by simp [hr c rfl])

/-- A run ends before a character that does not belong to it. -/
theorem takeWhile_run (hw : ∀ c ∈ w, p c = true) (hr : ∀ c ∈ r.head?, p c = false) :
    (w ++ r).takeWhile p = w := by
  rw [List.takeWhile_append_of_pos hw, takeWhile_eq_nil hr, List.append_nil]

theorem of_mem_takeWhile {cs : List Char} : ∀ c ∈ cs.takeWhile p, p c = true :=
  List.all_eq_true.mp List.all_takeWhile

/-- The character after a run does not belong to it. -/
theorem head_dropWhile (cs : List Char) : ∀ c ∈ (cs.dropWhile p).head?, p c = false := by
  intro c hc
  have hnot := List.head?_dropWhile_not p cs
  rw [Option.mem_def.mp hc] at hnot
  simpa using hnot

/-- The run of a text that a run of a larger class begins with. -/
theorem takeWhile_takeWhile {q : Char → Bool} (hpq : ∀ c, p c = true → q c = true) (cs : List Char)
    (hr : ∀ c ∈ r.head?, q c = false) : (cs.takeWhile q ++ r).takeWhile p = cs.takeWhile p := by
  induction cs with
  | nil =>
      refine takeWhile_eq_nil ?_
      intro c hc
      cases hp : p c with
      | false => rfl
      | true => exact absurd (hpq c hp) (by simp [hr c hc])
  | cons c cs ih =>
      by_cases hc : p c = true
      · rw [List.takeWhile_cons_of_pos (hpq c hc), List.cons_append, List.takeWhile_cons_of_pos hc,
          List.takeWhile_cons_of_pos hc, ih]
      · by_cases hq : q c = true
        · rw [List.takeWhile_cons_of_pos hq, List.cons_append, List.takeWhile_cons_of_neg hc,
            List.takeWhile_cons_of_neg hc]
        · rw [List.takeWhile_cons_of_neg hq, List.takeWhile_cons_of_neg hc]
          refine takeWhile_eq_nil ?_
          intro d hd
          cases hp : p d with
          | false => rfl
          | true => exact absurd (hpq d hp) (by simp [hr d hd])

/-- A run that ends within some text ends there whatever follows the text. -/
theorem takeWhile_append_of_lt (h : ((w ++ s).takeWhile p).length < w.length)
    (r : List Char) : (w ++ r).takeWhile p = (w ++ s).takeWhile p := by
  induction w with
  | nil => cases h
  | cons c w ih =>
      by_cases hc : p c = true
      · rw [List.cons_append, List.takeWhile_cons_of_pos hc, List.length_cons, List.length_cons] at h
        rw [List.cons_append, List.cons_append, List.takeWhile_cons_of_pos hc,
          List.takeWhile_cons_of_pos hc, ih (by omega)]
      · rw [List.cons_append, List.cons_append, List.takeWhile_cons_of_neg hc,
          List.takeWhile_cons_of_neg hc]

/-- A character outside of a class ends every run. -/
theorem takeWhile_append_of_stop {c : Char} (hc : p c = false) (r : List Char) :
    (w ++ c :: r).takeWhile p = w.takeWhile p := by
  induction w with
  | nil => exact List.takeWhile_cons_of_neg (by simp [hc])
  | cons d w ih =>
      by_cases hd : p d = true
      · rw [List.cons_append, List.takeWhile_cons_of_pos hd, List.takeWhile_cons_of_pos hd, ih]
      · rw [List.cons_append, List.takeWhile_cons_of_neg hd, List.takeWhile_cons_of_neg hd]

/-- A run that takes some text and stops there takes it before anything that begins in another way. -/
theorem takeWhile_eq_of_length (h : ((w ++ s).takeWhile p).length = w.length) :
    (∀ c ∈ w, p c = true) ∧ ∀ c ∈ s.head?, p c = false := by
  induction w with
  | nil =>
      refine ⟨List.forall_mem_nil _, ?_⟩
      intro c hc
      cases s with
      | nil => cases hc
      | cons d s =>
          cases hc
          cases hp : p c with
          | false => rfl
          | true =>
              rw [List.nil_append, List.takeWhile_cons_of_pos hp] at h
              cases h
  | cons c w ih =>
      cases hc : p c with
      | false =>
          rw [List.cons_append, List.takeWhile_cons_of_neg (by simp [hc])] at h
          cases h
      | true =>
          rw [List.cons_append, List.takeWhile_cons_of_pos hc, List.length_cons, List.length_cons] at h
          obtain ⟨hw, hs⟩ := ih (by omega)
          exact ⟨List.forall_mem_cons.mpr ⟨hc, hw⟩, hs⟩

end Respell.Text
