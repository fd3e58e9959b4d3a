import Inliner.Proofs.RoundTrip

/-! Texts and their lines. Splitting a text and putting its lines together undo each other, up to
the line feed that a last line may lack. -/
namespace Inliner.Text

/-- A text of whole lines: it is empty, or ends in a line feed. -/
def Ended (text : String) : Prop := text = "" ∨ text.toList.getLast? = some '\n'

instance (text : String) : Decidable (Ended text) :=
  inferInstanceAs (Decidable (text = "" ∨ text.toList.getLast? = some '\n'))

theorem ended_ofList {cs : List Char} :
    Ended (String.ofList cs) ↔ cs = [] ∨ cs.getLast? = some '\n' := by
  rw [Ended, String.toList_ofList, String.ext_iff, String.toList_ofList, String.toList_empty]

theorem lineChars_eq_nil_iff {cs : List Char} : lineChars cs = [] ↔ cs = [] := by
  cases cs with
  | nil => exact iff_of_true rfl rfl
  | cons c rest =>
    refine iff_of_false ?_ (List.cons_ne_nil c rest)
    rw [lineChars]
    split
    · exact List.cons_ne_nil _ _
    · split <;> exact List.cons_ne_nil _ _

theorem flatMap_lineChars (cs : List Char) :
    ((lineChars cs).flatMap fun line => line ++ ['\n']) =
      if cs = [] ∨ cs.getLast? = some '\n' then cs else cs ++ ['\n'] := by
  induction cs with
  | nil => rfl
  | cons c rest ih =>
    rw [lineChars]
    by_cases hrest : rest = []
    · subst hrest
      by_cases hc : c = '\n' <;> simp [lineChars, hc]
    · rw [List.getLast?_cons_of_ne_nil hrest]
      simp only [hrest, false_or, reduceCtorEq] at ih ⊢
      have hlines : lineChars rest ≠ [] := fun h => hrest (lineChars_eq_nil_iff.mp h)
      obtain ⟨line, lines, hcons⟩ := List.exists_cons_of_ne_nil hlines
      split
      · rename_i hc
        rw [List.flatMap_cons, ih, hc]
        split <;> rfl
      · rw [hcons] at ih ⊢
        rw [List.flatMap_cons] at ih ⊢
        rw [List.cons_append, List.cons_append, ih]
        split <;> rfl

theorem renderLines_splitLines (text : String) :
    renderLines (splitLines text) = if Ended text then text else text ++ "\n" := by
  obtain ⟨cs, rfl⟩ : ∃ cs, text = String.ofList cs := ⟨text.toList, String.ofList_toList.symm⟩
  have hchars : (splitLines (String.ofList cs)).flatMap (fun line => line.toList ++ ['\n']) =
      (lineChars cs).flatMap fun line => line ++ ['\n'] := by
    rw [splitLines, String.toList_ofList, List.flatMap_map]
    simp only [String.toList_ofList]
  rw [String.ext_iff, toList_renderLines, hchars, flatMap_lineChars]
  by_cases h : cs = [] ∨ cs.getLast? = some '\n'
  · rw [if_pos h, if_pos (ended_ofList.mpr h), String.toList_ofList]
  · rw [if_neg h, if_neg (mt ended_ofList.mp h), String.toList_append, String.toList_ofList]
    rfl

theorem splitLines_append {front : String} (h : Ended front) (text : String) :
    splitLines (front ++ text) = splitLines front ++ splitLines text := by
  have hfront : renderLines (splitLines front) = front := by
    rw [renderLines_splitLines, if_pos h]
  conv_lhs => rw [← hfront]
  exact splitLines_renderLines_append (fun line hline => newline_not_mem_of_mem_splitLines hline) text

/-- Splitting and putting together undo each other. Lines without line feeds are the lines of the
text that they make. The lines of a text hold no line feeds, and make the text again, with a line
feed behind it if its last line lacks one. The lines of a text of whole lines come before the lines
of what is written behind it. -/
theorem splitLines_inverts_renderLines :
    (∀ lines : List String, (∀ line ∈ lines, '\n' ∉ line.toList) →
      splitLines (renderLines lines) = lines) ∧
    (∀ text : String, (∀ line ∈ splitLines text, '\n' ∉ line.toList) ∧
      renderLines (splitLines text) = if Ended text then text else text ++ "\n") ∧
    ∀ front text : String, Ended front →
      splitLines (front ++ text) = splitLines front ++ splitLines text := by
  refine ⟨fun lines h => splitLines_renderLines h, fun text => ⟨fun line hline => ?_, ?_⟩, ?_⟩
  · exact newline_not_mem_of_mem_splitLines hline
  · exact renderLines_splitLines text
  · exact fun front text h => splitLines_append h text

/-- Blank lines, a carriage return between them, and a last line that is not ended. -/
theorem blanks_splitLines_inverts_renderLines :
    (∀ line ∈ ["", "\r", "", "x"], '\n' ∉ String.toList line) ∧
    splitLines (renderLines ["", "\r", "", "x"]) = ["", "\r", "", "x"] ∧
    ¬Ended "\n\n\rx" ∧ renderLines (splitLines "\n\n\rx") = "\n\n\rx\n" ∧
    Ended "a\n\n" ∧ splitLines ("a\n\n" ++ "\nb") = splitLines "a\n\n" ++ splitLines "\nb" := by
  obtain ⟨hlines, htexts, hbehind⟩ := splitLines_inverts_renderLines
  have hclean : ∀ line ∈ ["", "\r", "", "x"], '\n' ∉ String.toList line := by decide
  have hopen : ¬Ended "\n\n\rx" := by decide
  have hended : Ended "a\n\n" := by decide
  have hrender := (htexts "\n\n\rx").2
  rw [if_neg hopen] at hrender
  exact ⟨hclean, hlines _ hclean, hopen, hrender, hended, hbehind _ _ hended⟩

end Inliner.Text
