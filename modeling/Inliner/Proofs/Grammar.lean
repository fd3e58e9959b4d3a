import Inliner.Proofs.Localisation

/-! A line asks for a path exactly if it is the keyword, blanks and a quoted or bare path, between
blanks. What only begins like that is malformed, and every other line is ordinary. -/
namespace Inliner

namespace Text

/-- A text with no blank at either end. -/
structure Trimmed (cs : List Char) : Prop where
  first : ∀ c ∈ cs.head?, isBlank c = false
  last : ∀ c ∈ cs.getLast?, isBlank c = false

theorem dropWhile_isBlank_append {before rest : List Char} (hbefore : ∀ c ∈ before, isBlank c)
    (hrest : ∀ c ∈ rest.head?, isBlank c = false) :
    (before ++ rest).dropWhile isBlank = rest := by
  rw [List.dropWhile_append_of_pos hbefore]
  cases rest with
  | nil => rfl
  | cons c rest => exact List.dropWhile_cons_of_neg (by simp [hrest c rfl])

theorem trimChars_append {before cs after : List Char} (hbefore : ∀ c ∈ before, isBlank c)
    (hafter : ∀ c ∈ after, isBlank c) (h : Trimmed cs) :
    trimChars (before ++ cs ++ after) = cs := by
  by_cases hcs : cs = []
  · subst hcs
    have hall : ∀ c ∈ before ++ [] ++ after, isBlank c := by
      simpa [or_imp, forall_and] using ⟨hbefore, hafter⟩
    rw [trimChars, trimLeft, List.dropWhile_eq_nil_iff.mpr hall, trimRight_nil]
  · have hleft : trimLeft (before ++ cs ++ after) = cs ++ after := by
      rw [trimLeft, List.append_assoc]
      refine dropWhile_isBlank_append hbefore fun c hc => h.first c ?_
      rwa [List.head?_append_of_ne_nil _ hcs] at hc
    have hright : (after.reverse ++ cs.reverse).dropWhile isBlank = cs.reverse := by
      refine dropWhile_isBlank_append (fun c hc => hafter c (List.mem_reverse.mp hc)) ?_
      rw [List.head?_reverse]
      exact h.last
    rw [trimChars, hleft, trimRight, List.reverse_append, hright, List.reverse_reverse]

theorem trimmed_trimChars (cs : List Char) : Trimmed (trimChars cs) := by
  have hdrop (cs : List Char) : ∀ c ∈ (cs.dropWhile isBlank).head?, isBlank c = false := by
    intro c hc
    have hhead := List.head?_dropWhile_not isBlank cs
    rw [Option.mem_def.mp hc] at hhead
    simpa using hhead
  refine ⟨fun c hc => ?_, ?_⟩
  · refine hdrop cs c ?_
    have hprefix : trimChars cs <+: trimLeft cs := by
      rw [trimChars, trimRight, ← List.reverse_suffix, List.reverse_reverse]
      exact List.dropWhile_suffix isBlank
    obtain ⟨more, hmore⟩ := hprefix
    show c ∈ (trimLeft cs).head?
    rw [← hmore, List.head?_append, Option.mem_def.mp hc]
    rfl
  · rw [trimChars, trimRight, List.getLast?_reverse]
    exact hdrop _

theorem exists_trimChars (cs : List Char) :
    ∃ before after, (∀ c ∈ before, isBlank c) ∧ (∀ c ∈ after, isBlank c) ∧
      cs = before ++ trimChars cs ++ after := by
  refine ⟨cs.takeWhile isBlank, ((trimLeft cs).reverse.takeWhile isBlank).reverse,
    fun c hc => List.mem_takeWhile_imp hc,
    fun c hc => List.mem_takeWhile_imp (List.mem_reverse.mp hc), ?_⟩
  have hright :
      trimChars cs ++ ((trimLeft cs).reverse.takeWhile isBlank).reverse = trimLeft cs := by
    rw [trimChars, trimRight, ← List.reverse_append, List.takeWhile_append_dropWhile,
      List.reverse_reverse]
  rw [List.append_assoc, hright, trimLeft, List.takeWhile_append_dropWhile]

end Text

namespace Directive

open Text (Trimmed trimChars)

/-- What stands for a path after the keyword: the path between delimiters, the closing one of which
it does not hold, or the path itself if it does not begin like a delimited one. -/
inductive Quoted : (quoted path : List Char) → QuoteStyle → Prop
  | angle {path : List Char} (nonempty : path ≠ []) (free : '>' ∉ path) :
      Quoted ('<' :: path ++ ['>']) path .angle
  | double {path : List Char} (nonempty : path ≠ []) (free : '"' ∉ path) :
      Quoted ('"' :: path ++ ['"']) path .double
  | single {path : List Char} (nonempty : path ≠ []) (free : '\'' ∉ path) :
      Quoted ('\'' :: path ++ ['\'']) path .single
  | bare {path : List Char} (nonempty : path ≠ []) (trimmed : Trimmed path)
      (plain : ∀ c ∈ path.head?, c ≠ '<' ∧ c ≠ '"' ∧ c ≠ '\'') : Quoted path path .bare

/-- The line is written as an include of the path. -/
def Written (line path : String) (style : QuoteStyle) : Prop :=
  ∃ before between quoted after : List Char,
    line.toList = before ++ keyword.toList ++ between ++ quoted ++ after ∧
    (∀ c ∈ before, Text.isBlank c) ∧ (∀ c ∈ between, Text.isBlank c) ∧ between ≠ [] ∧
    (∀ c ∈ after, Text.isBlank c) ∧ Quoted quoted path.toList style

theorem Quoted.trimmed {quoted path : List Char} {style : QuoteStyle}
    (h : Quoted quoted path style) : quoted ≠ [] ∧ Trimmed quoted := by
  have hends {first last : Char} (hfirst : Text.isBlank first = false)
      (hlast : Text.isBlank last = false) (path : List Char) :
      Trimmed (first :: path ++ [last]) := by
    refine ⟨?_, ?_⟩
    · simpa using hfirst
    · rw [List.getLast?_concat]
      simpa using hlast
  cases h with
  | angle => exact ⟨by simp, hends (by decide) (by decide) path⟩
  | double => exact ⟨by simp, hends (by decide) (by decide) path⟩
  | single => exact ⟨by simp, hends (by decide) (by decide) path⟩
  | bare nonempty trimmed plain => exact ⟨nonempty, trimmed⟩

theorem delimited?_eq_some_iff {d : Delimiters} {rest path : List Char} :
    delimited? d rest = some path ↔
      path ≠ [] ∧ d.closing ∉ path ∧ rest = path ++ [d.closing] := by
  unfold delimited?
  dsimp only
  constructor
  · intro h
    split at h
    · rename_i hrest
      cases h
      refine ⟨hrest.2, fun hmem => ?_, hrest.1⟩
      simpa using List.mem_takeWhile_imp hmem
    · cases h
  · rintro ⟨hne, hfree, rfl⟩
    have htake : (path ++ [d.closing]).takeWhile (· != d.closing) = path := by
      have hpath : ∀ c ∈ path, (c != d.closing) = true := by
        intro c hc
        simpa using fun he : c = d.closing => hfree (he ▸ hc)
      rw [List.takeWhile_append_of_pos hpath, List.takeWhile_cons_of_neg (by simp), List.append_nil]
    rw [htake, if_pos ⟨rfl, hne⟩]

theorem delimitersAt?_eq_none_iff {c : Char} :
    delimitersAt? c = none ↔ c ≠ '<' ∧ c ≠ '"' ∧ c ≠ '\'' := by
  rw [delimitersAt?, List.find?_eq_none]
  simp only [delimiters, List.forall_mem_cons, beq_iff_eq, List.not_mem_nil, false_implies,
    implies_true, and_true]
  exact and_congr ne_comm (and_congr ne_comm ne_comm)

theorem mem_delimiters_of_delimitersAt? {c : Char} {d : Delimiters} (h : delimitersAt? c = some d) :
    d ∈ delimiters ∧ d.opening = c := by
  refine ⟨List.mem_of_find?_eq_some h, ?_⟩
  simpa using List.find?_some h

/-- A trimmed text is read as the path for which it stands. -/
theorem path?_eq_some_iff {quoted path : List Char} {style : QuoteStyle} (h : Trimmed quoted) :
    path? quoted = some (path, style) ↔ Quoted quoted path style := by
  constructor
  · intro hread
    unfold path? at hread
    split at hread
    · cases hread
    · rename_i c rest
      split at hread
      · rename_i d hd
        obtain ⟨inner, hinner, heq⟩ := Option.map_eq_some_iff.mp hread
        obtain ⟨rfl, rfl⟩ := Prod.mk.inj heq
        obtain ⟨hne, hfree, rfl⟩ := delimited?_eq_some_iff.mp hinner
        obtain ⟨hmem, rfl⟩ := mem_delimiters_of_delimitersAt? hd
        simp only [delimiters, List.mem_cons, List.not_mem_nil, or_false] at hmem
        rcases hmem with rfl | rfl | rfl
        · exact .angle hne hfree
        · exact .double hne hfree
        · exact .single hne hfree
      · rename_i hnone
        cases hread
        refine .bare (by simp) h fun c' hc' => ?_
        obtain rfl : c = c' := by simpa using hc'
        exact delimitersAt?_eq_none_iff.mp hnone
  · intro hquoted
    have hdelimited {d : Delimiters} (hd : delimitersAt? d.opening = some d) {path : List Char}
        (hne : path ≠ []) (hfree : d.closing ∉ path) :
        path? (d.opening :: path ++ [d.closing]) = some (path, d.style) := by
      have hinner := delimited?_eq_some_iff.mpr ⟨hne, hfree, rfl⟩
      simp only [List.cons_append, path?, hd, hinner, Option.map_some]
    cases hquoted with
    | angle nonempty free => exact @hdelimited ⟨'<', '>', .angle⟩ rfl path nonempty free
    | double nonempty free => exact @hdelimited ⟨'"', '"', .double⟩ rfl path nonempty free
    | single nonempty free => exact @hdelimited ⟨'\'', '\'', .single⟩ rfl path nonempty free
    | bare nonempty trimmed plain =>
      cases quoted with
      | nil => exact absurd rfl nonempty
      | cons c rest => simp only [path?, delimitersAt?_eq_none_iff.mpr (plain c rfl)]

theorem readLine_of_keyword {line : String} {rest : List Char}
    (h : trimChars line.toList = keyword.toList ++ rest)
    (hblank : ∀ c ∈ rest.head?, Text.isBlank c) :
    readLine line = match path? (trimChars rest) with
      | some (path, style) => .includes (String.ofList path) style
      | none => .malformed (Text.trim line) := by
  have hkeyword : keyword.toList.isPrefixOf (keyword.toList ++ rest) = true :=
    List.isPrefixOf_iff_prefix.mpr (List.prefix_append ..)
  have hhead : (rest.head?.map Text.isBlank).getD true = true := by
    cases rest with
    | nil => rfl
    | cons c rest => exact hblank c rfl
  rw [readLine, readTrimmed, Text.trim, h, if_pos hkeyword, List.drop_left]
  refine (if_pos hhead).trans ?_
  cases path? (trimChars rest) with
  | none => rfl
  | some found => rfl

theorem Written.exists_rest {line path : String} {style : QuoteStyle}
    (h : Written line path style) :
    ∃ rest, trimChars line.toList = keyword.toList ++ rest ∧
      (∀ c ∈ rest.head?, Text.isBlank c) ∧ Quoted (trimChars rest) path.toList style := by
  obtain ⟨before, between, quoted, after, hline, hbefore, hbetween, hne, hafter, hquoted⟩ := h
  obtain ⟨hsome, htrimmed⟩ := hquoted.trimmed
  have hwhole : Trimmed (keyword.toList ++ between ++ quoted) := by
    refine ⟨fun c hc => ?_, fun c hc => htrimmed.last c ?_⟩
    · have hchars : keyword.toList = '#' :: "include".toList := by decide
      obtain rfl : '#' = c := by simpa [hchars] using hc
      decide
    · rwa [List.getLast?_append_of_ne_nil _ hsome] at hc
  have htrim := Text.trimChars_append hbefore hafter hwhole
  have hrest : trimChars (between ++ quoted ++ []) = quoted :=
    Text.trimChars_append hbetween (by simp) htrimmed
  rw [List.append_nil] at hrest
  refine ⟨between ++ quoted, ?_, fun c hc => ?_, by rwa [hrest]⟩
  · rw [hline]
    simpa only [List.append_assoc] using htrim
  · rw [List.head?_append_of_ne_nil _ hne] at hc
    exact hbetween c (List.mem_of_head? hc)

/-- A line asks for a path exactly if it is written as an include of it. -/
theorem readLine_eq_includes_iff {line path : String} {style : QuoteStyle} :
    readLine line = .includes path style ↔ Written line path style := by
  constructor
  · intro h
    have hinclude : IsIncludeLine line := isIncludeLine_of_readLine (by simp [h])
    obtain ⟨rest, hrest, hblank⟩ := hinclude
    rw [readLine_of_keyword hrest hblank] at h
    split at h
    · rename_i cs style' hpath
      cases h
      have hquoted := (path?_eq_some_iff (Text.trimmed_trimChars rest)).mp hpath
      obtain ⟨before, after, hbefore, hafter, hline⟩ := Text.exists_trimChars line.toList
      obtain ⟨between, more, hbetween, hmore, hparts⟩ := Text.exists_trimChars rest
      refine ⟨before, between, trimChars rest, more ++ after, ?_, hbefore, hbetween, ?_, ?_,
        by rwa [String.toList_ofList]⟩
      · rw [hline, hrest]
        conv_lhs => rw [hparts]
        simp only [List.append_assoc]
      · rintro rfl
        obtain ⟨hsome, htrimmed⟩ := hquoted.trimmed
        cases hcs : trimChars rest with
        | nil => exact hsome hcs
        | cons c cs =>
          have hhead : c ∈ rest.head? := by
            rw [hparts, hcs]
            rfl
          have hfirst := htrimmed.first c (by rw [hcs]; rfl)
          rw [hblank c hhead] at hfirst
          cases hfirst
      · intro c hc
        rcases List.mem_append.mp hc with hc | hc
        · exact hmore c hc
        · exact hafter c hc
    · cases h
  · intro h
    obtain ⟨rest, hrest, hblank, hquoted⟩ := h.exists_rest
    rw [readLine_of_keyword hrest hblank,
      (path?_eq_some_iff (Text.trimmed_trimChars rest)).mpr hquoted]
    simp

/-- A line is written as an include of one path, in one style. -/
theorem Written.unique {line path path' : String} {style style' : QuoteStyle}
    (h : Written line path style) (h' : Written line path' style') :
    path' = path ∧ style' = style := by
  have hread := (readLine_eq_includes_iff.mpr h').symm.trans (readLine_eq_includes_iff.mpr h)
  simpa using hread

theorem Written.isIncludeLine {line path : String} {style : QuoteStyle}
    (h : Written line path style) : IsIncludeLine line := by
  obtain ⟨rest, hrest, hblank, -⟩ := h.exists_rest
  exact ⟨rest, hrest, hblank⟩

theorem readLine_eq_malformed_iff {line text : String} :
    readLine line = .malformed text ↔
      IsIncludeLine line ∧ (∀ path style, ¬Written line path style) ∧ text = Text.trim line := by
  constructor
  · intro h
    have hinclude : IsIncludeLine line := isIncludeLine_of_readLine (by simp [h])
    refine ⟨hinclude, fun path style hwritten => ?_, ?_⟩
    · rw [readLine_eq_includes_iff.mpr hwritten] at h
      cases h
    · obtain ⟨rest, hrest, hblank⟩ := hinclude
      rw [readLine_of_keyword hrest hblank] at h
      split at h
      · cases h
      · cases h
        rfl
  · rintro ⟨⟨rest, hrest, hblank⟩, hnot, rfl⟩
    have hread := readLine_of_keyword hrest hblank
    split at hread
    · rename_i path style hpath
      exact absurd (readLine_eq_includes_iff.mp hread) (hnot _ _)
    · exact hread

theorem readLine_eq_plain_iff {line : String} : readLine line = .plain ↔ ¬IsIncludeLine line := by
  constructor
  · rintro h ⟨rest, hrest, hblank⟩
    rw [readLine_of_keyword hrest hblank] at h
    split at h <;> cases h
  · intro h
    by_contra hread
    exact h (isIncludeLine_of_readLine hread)

/-- A line is read by its grammar. It is a directive with a path and a style exactly if it is
blanks, the keyword, blanks, the path as it is written in that style, and blanks; it is so written
in one way only, and the place of the directive is the given one. It is malformed exactly if its
trimmed text is the keyword, alone or before a blank, and it is not so written; the error tells the
trimmed text and the given place. Every other line is no directive. -/
theorem parseLine_reads_grammar (line source : String) (number : Number) :
    (∀ d, parseLine line number source = .ok (some d) ↔
      Written line d.rawPath d.quoteStyle ∧ d.lineNumber = number ∧ d.sourceFile = source) ∧
    (∀ path style path' style', Written line path style → Written line path' style' →
      path' = path ∧ style' = style) ∧
    (∀ e, parseLine line number source = .error e ↔
      IsIncludeLine line ∧ (∀ path style, ¬Written line path style) ∧
      e = .ofProblem (.invalidDirective (Text.trim line) ⟨source, number⟩)) ∧
    (parseLine line number source = .ok none ↔
      (∀ path style, ¬Written line path style) ∧ ¬IsIncludeLine line) := by
  refine ⟨fun d => ?_, fun _ _ _ _ h h' => h.unique h', fun e => ?_, ?_⟩
  · rw [← readLine_eq_includes_iff]
    obtain ⟨lineNumber, rawPath, quoteStyle, sourceFile⟩ := d
    unfold parseLine
    cases readLine line with
    | plain => simp
    | malformed text => simp
    | includes path style =>
      simp only [Except.ok.injEq, Option.some.injEq, Directive.mk.injEq, Line.includes.injEq]
      constructor
      · rintro ⟨rfl, rfl, rfl, rfl⟩
        exact ⟨⟨rfl, rfl⟩, rfl, rfl⟩
      · rintro ⟨⟨rfl, rfl⟩, rfl, rfl⟩
        exact ⟨rfl, rfl, rfl, rfl⟩
  · have hmalformed : parseLine line number source = .error e ↔
        ∃ text, readLine line = .malformed text ∧
          e = .ofProblem (.invalidDirective text ⟨source, number⟩) := by
      unfold parseLine
      cases readLine line <;> simp [eq_comm]
    rw [hmalformed]
    simp only [readLine_eq_malformed_iff]
    constructor
    · rintro ⟨text, ⟨hinclude, hnot, rfl⟩, rfl⟩
      exact ⟨hinclude, hnot, rfl⟩
    · rintro ⟨hinclude, hnot, rfl⟩
      exact ⟨_, ⟨hinclude, hnot, rfl⟩, rfl⟩
  · have hplain : parseLine line number source = .ok none ↔ readLine line = .plain := by
      unfold parseLine
      cases readLine line <;> simp
    rw [hplain, readLine_eq_plain_iff]
    exact ⟨fun h => ⟨fun _ _ hwritten => h hwritten.isIncludeLine, h⟩, fun h => h.2⟩

/-- A closing delimiter inside the path is the one that counts. -/
example : readLine "#include 'a'b'" = .malformed "#include 'a'b'" := by decide

end Directive
end Inliner
