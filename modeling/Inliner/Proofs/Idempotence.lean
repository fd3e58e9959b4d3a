import Inliner.Proofs.Confinement
import Inliner.Proofs.IncludeTree
import Inliner.Proofs.RoundTrip
import Inliner.Proofs.Snapshot
import Inliner.Proofs.Tracing

/-! Every line that a run gives is ordinary and holds no line feed. A file that holds the text of a
run is therefore expanded to that text. -/
namespace Inliner

/-- A line that is no directive, well-formed or not, and one line only. -/
structure Directive.Ordinary (line : String) : Prop where
  plain : readLine line = .plain
  whole : '\n' ∉ line.toList

namespace Directive

theorem parseLine_eq_none_iff {line : String} {number : Number} {source : String} :
    parseLine line number source = .ok none ↔ readLine line = .plain := by
  unfold parseLine
  split <;> simp [*]

theorem mem_of_mem_trimChars {cs : List Char} {c : Char} (h : c ∈ Text.trimChars cs) : c ∈ cs := by
  have hright : c ∈ Text.trimLeft cs :=
    List.mem_reverse.mp ((List.dropWhile_sublist _).subset (List.mem_reverse.mp h))
  exact (List.dropWhile_sublist _).subset hright

theorem mem_of_path? {cs path : List Char} {style : QuoteStyle} (h : path? cs = some (path, style))
    {c : Char} (hc : c ∈ path) : c ∈ cs := by
  unfold path? at h
  split at h
  · cases h
  · rename_i first rest
    split at h
    · rename_i d hd
      obtain ⟨inner, hinner, heq⟩ := Option.map_eq_some_iff.mp h
      cases heq
      unfold delimited? at hinner
      dsimp only at hinner
      split at hinner
      · cases hinner
        exact List.mem_cons_of_mem first ((List.takeWhile_sublist _).subset hc)
      · cases hinner
    · cases h
      exact hc

theorem mem_line_of_mem_rawPath {line : String} {number : Number} {source : String} {d : Directive}
    (h : parseLine line number source = .ok (some d)) {c : Char} (hc : c ∈ d.rawPath.toList) :
    c ∈ line.toList := by
  unfold parseLine at h
  split at h
  · cases h
  · rename_i path style hread
    cases h
    unfold readLine readTrimmed at hread
    split at hread
    · dsimp only at hread
      split at hread
      · split at hread
        · rename_i cs style' hpath
          cases hread
          rw [String.toList_ofList] at hc
          have htrimmed := mem_of_mem_trimChars (mem_of_path? hpath hc)
          exact mem_of_mem_trimChars ((List.drop_sublist _ _).subset htrimmed)
        · cases hread
      · cases hread
    · cases hread
  · cases h

theorem trimChars_eq_self {first last : Char} (hfirst : Text.isBlank first = false)
    (hlast : Text.isBlank last = false) (middle : List Char) :
    Text.trimChars (first :: middle ++ [last]) = first :: middle ++ [last] := by
  have hleft : Text.trimLeft (first :: middle ++ [last]) = first :: middle ++ [last] := by
    rw [Text.trimLeft, List.cons_append, List.dropWhile_cons_of_neg (by simp [hfirst])]
  rw [Text.trimChars, hleft, Text.trimRight, List.reverse_append, List.reverse_singleton,
    List.singleton_append, List.dropWhile_cons_of_neg (by simp [hlast]), List.reverse_cons,
    List.reverse_reverse]

theorem readLine_comment {line : String} {middle : List Char}
    (h : line.toList = '#' :: ' ' :: middle ++ ['-']) : readLine line = .plain := by
  have htrim := trimChars_eq_self (by decide : Text.isBlank '#' = false)
    (by decide : Text.isBlank '-' = false) (' ' :: middle)
  have hkeyword : keyword.toList.isPrefixOf ('#' :: ' ' :: middle ++ ['-']) = false := by
    have hchars : keyword.toList = '#' :: 'i' :: "nclude".toList := by decide
    rw [hchars]
    rfl
  rw [readLine, h, htrim, readTrimmed, hkeyword, if_neg Bool.false_ne_true]

theorem ordinary_marker (before after : List Char) {opening closing rawPath : String}
    (hopening : opening.toList = '#' :: ' ' :: before) (hclosing : closing.toList = after ++ ['-'])
    (hbefore : '\n' ∉ opening.toList) (hafter : '\n' ∉ closing.toList)
    (h : '\n' ∉ rawPath.toList) : Ordinary (opening ++ rawPath ++ closing) := by
  have htext : (opening ++ rawPath ++ closing).toList =
      opening.toList ++ rawPath.toList ++ closing.toList := by
    rw [String.toList_append, String.toList_append]
  constructor
  · have hcomment : (opening ++ rawPath ++ closing).toList =
        '#' :: ' ' :: (before ++ rawPath.toList ++ after) ++ ['-'] := by
      rw [htext, hopening, hclosing]
      simp
    exact readLine_comment hcomment
  · rw [htext]
    simp only [List.mem_append, not_or]
    exact ⟨⟨hbefore, h⟩, hafter⟩

theorem ordinary_beginMarker {rawPath : String} (h : '\n' ∉ rawPath.toList) :
    Ordinary (beginMarker rawPath) :=
  ordinary_marker "--- Included from ".toList " --".toList
    (by decide) (by decide) (by decide) (by decide) h

theorem ordinary_endMarker {rawPath : String} (h : '\n' ∉ rawPath.toList) :
    Ordinary (endMarker rawPath) :=
  ordinary_marker "--- End of ".toList " --".toList
    (by decide) (by decide) (by decide) (by decide) h

theorem scan_of_plain {text : String} (h : ∀ line ∈ Text.splitLines text, readLine line = .plain)
    (source : String) : scan text source = .ok [] := by
  have hlines (number : Nat) (lines : List String) (h : ∀ line ∈ lines, readLine line = .plain) :
      scanLines source number lines = .ok [] := by
    induction lines generalizing number with
    | nil => rfl
    | cons line rest ih =>
      have hhere : parseLine line (.count number) source = .ok none :=
        parseLine_eq_none_iff.mpr (h line (by simp))
      have hrest := ih (number + 1) fun l hl => h l (List.mem_cons_of_mem line hl)
      rw [scanLines, hhere, hrest]
      rfl
  exact hlines 1 _ h

end Directive

namespace IncludeTree

variable {v : Host Id} {r : Resolver}

/-- All lines of the flattening are ordinary: those that are copied by what they were read as, and
the markers because they are comments. -/
theorem Grows.ordinary {path : String} {number : Nat} {lines : List String} {tree : IncludeTree}
    (h : Grows v r path number lines tree) (hlines : ∀ line ∈ lines, '\n' ∉ line.toList)
    (marks : Bool) : ∀ line ∈ tree.flatten marks, Directive.Ordinary line := by
  induction h with
  | done => simp [flatten]
  | @line path number text lines rest plain below ih =>
    intro line hline
    rcases List.mem_cons.mp hline with rfl | hline
    · exact ⟨Directive.parseLine_eq_none_iff.mp plain, hlines line (by simp)⟩
    · exact ih (fun l hl => hlines l (List.mem_cons_of_mem text hl)) line hline
  | @block path target content text number lines d inside rest asks _ _ _ _ ihw ihb =>
    intro line hline
    have hraw : '\n' ∉ d.rawPath.toList := fun hmem =>
      hlines text (by simp) (Directive.mem_line_of_mem_rawPath asks hmem)
    have hinside := ihw fun l hl => Text.newline_not_mem_of_mem_splitLines hl
    rcases List.mem_append.mp hline with hline | hline
    · split at hline
      · rcases List.mem_append.mp hline with hline | hline
        · rcases List.mem_append.mp hline with hline | hline
          · rw [List.mem_singleton.mp hline]
            exact Directive.ordinary_beginMarker hraw
          · exact hinside line hline
        · rw [List.mem_singleton.mp hline]
          exact Directive.ordinary_endMarker hraw
      · exact hinside line hline
    · exact ihb (fun l hl => hlines l (List.mem_cons_of_mem text hl)) line hline

theorem IsTreeOf.ordinary {path : String} {tree : IncludeTree} (h : IsTreeOf v r tree path)
    (marks : Bool) : ∀ line ∈ tree.flatten marks, Directive.Ordinary line := by
  obtain ⟨text, -, hgrows⟩ := h
  exact hgrows.ordinary (fun line hline => Text.newline_not_mem_of_mem_splitLines hline) marks

end IncludeTree

namespace Expansion

open Ledgered

theorem result_expandLines_of_plain (v : Host Id) (r : Resolver) (debug : Bool) (path : String)
    {expandFile : String → Ledgered Id (List String)} (hf : ∀ target, (expandFile target).Restores)
    {lines : List String} (h : ∀ line ∈ lines, Directive.readLine line = .plain) (number : Nat)
    (l : Ledger) :
    (expandLines v r debug path expandFile number lines).result l = .ok lines := by
  induction lines generalizing number with
  | nil => rfl
  | cons line rest ih =>
    have hhere : piece v r debug path expandFile l number line = .ok [line] :=
      (piece_eq_ok_iff v r debug path).mpr
        (.inl ⟨Directive.parseLine_eq_none_iff.mpr (h line (by simp)), rfl⟩)
    have hrest := ih (fun l hl => h l (List.mem_cons_of_mem line hl)) (number + 1)
    rw [result_expandLines_cons v r debug path hf, hhere, hrest]
    rfl

end Expansion

namespace Preprocessor

variable {v : Host Id} {o : Options} {input : String} {c : Config} {file : String} {r : Resolver}

theorem outcomeOf_of_plain (hc : Config.forInput v.cwd o input = .ok c)
    (hfile : fileOf v input = .ok file) (hr : resolverOf v c = .ok r) {text : String}
    (htext : v.textOf file = .ok text)
    (h : ∀ line ∈ Text.splitLines text, Directive.readLine line = .plain) :
    outcomeOf v o input = .ok (Text.renderLines (Text.splitLines text)) := by
  have hexpand : (Expansion.expandWithin v r c.marks (c.maxIncludeDepth.floorNat + 1) file).result
      (opening c file) = .ok (Text.splitLines text) :=
    (Expansion.result_expandWithin_succ_eq_ok_iff v r c.marks file).mpr ⟨text, htext,
      Expansion.result_expandLines_of_plain v r c.marks file
        (fun target => Expansion.restores_expandWithin v r c.marks target _) h 1 _⟩
  rw [outcomeOf_eq v o input hc hfile hr, hexpand]
  rfl

theorem lines_of_outcomeOf {text : String} (h : outcomeOf v o input = .ok text) :
    Text.renderLines (Text.splitLines text) = text ∧
      ∀ line ∈ Text.splitLines text, Directive.readLine line = .plain := by
  obtain ⟨c, file, r, hc, hfile, hr⟩ := starts_of_outcomeOf h
  obtain ⟨tree, htree, rfl⟩ := isTreeOf_of_outcomeOf hc hfile hr h
  have hordinary := htree.ordinary c.marks
  have hlines := Text.splitLines_renderLines fun line hline => (hordinary line hline).whole
  rw [hlines]
  exact ⟨rfl, fun line hline => (hordinary line hline).plain⟩

end Preprocessor

namespace Machine

open Preprocessor

variable {s s' : Machine} {cwd : Names}

theorem textOf_eq_ok_iff (hs : s.Steady) {path text : String} :
    (s.view cwd).textOf path = .ok text ↔
      s.refusal? cwd .read path = none ∧
        ∃ bytes, s.tree.read cwd path = .ok bytes ∧ Text.decodeUtf8 bytes = text := by
  rw [Host.textOf, Host.readSource, run_onPath, mapError_eq_ok_iff]
  show (s.view cwd).read path = Except.ok text ↔ _
  rw [answersIn_read hs, answer_eq_ok_iff, map_eq_ok_iff]

theorem textOf_of_bytes (hs : s.Steady) {path text old : String}
    (hold : (s.view cwd).textOf path = .ok old)
    (hbytes : s.tree.read cwd path = .ok (Text.encodeUtf8 text)) :
    (s.view cwd).textOf path = .ok text :=
  (textOf_eq_ok_iff hs).mpr
    ⟨((textOf_eq_ok_iff hs).mp hold).1, _, hbytes, Text.decodeUtf8_encodeUtf8 text⟩

/-- The text of a run, wherever it is stored and read, is expanded to itself. -/
theorem outcome_of_outcome (hs : s.Steady) (hs' : s'.Steady) {o o' : Options}
    {input input' text file old : String} {cwd' : Names} {c : Config} {r : Resolver}
    (h : s.outcome cwd o input = .ok text) (hc : Config.forInput cwd' o' input' = .ok c)
    (hfile : fileOf (s'.view cwd') input' = .ok file) (hr : resolverOf (s'.view cwd') c = .ok r)
    (hold : (s'.view cwd').textOf file = .ok old)
    (hbytes : s'.tree.read cwd' file = .ok (Text.encodeUtf8 text)) :
    s'.outcome cwd' o' input' = .ok text := by
  rw [outcome_eq hs] at h
  obtain ⟨hself, hplain⟩ := lines_of_outcomeOf h
  have htext := textOf_of_bytes hs' hold hbytes
  have hcopied := outcomeOf_of_plain (v := s'.view cwd') hc hfile hr htext hplain
  rw [outcome_eq hs', hcopied, hself]

theorem canonicalOf_of_extends (hs : s.Steady) (hs' : s'.Steady) (hfaults : s'.faults = s.faults)
    (htree : s.tree.Extends s'.tree) {path canonical : String}
    (h : (s.view cwd).canonicalOf path none = .ok canonical) :
    (s'.view cwd).canonicalOf path none = .ok canonical := by
  rw [Host.canonicalOf_eq_ok_iff] at h ⊢
  rw [answersIn_realpath hs, answer_eq_ok_iff] at h
  rw [answersIn_realpath hs', answer_eq_ok_iff]
  obtain ⟨hmade, hreal⟩ := h
  refine ⟨by rw [refusal?, hfaults]; exact hmade, ?_⟩
  unfold realpathIn at hreal ⊢
  split at hreal
  · rename_i names hnames
    rw [htree.realpath hnames]
    exact hreal
  · cases hreal

theorem resolverOf_of_extends (hs : s.Steady) (hs' : s'.Steady) (hfaults : s'.faults = s.faults)
    (htree : s.tree.Extends s'.tree) {c : Config} {r : Resolver}
    (h : resolverOf (s.view cwd) c = .ok r) : resolverOf (s'.view cwd) c = .ok r := by
  rw [resolverOf_eq, map_eq_ok_iff] at h ⊢
  obtain ⟨root, hroot, hresolver⟩ := h
  exact ⟨root, canonicalOf_of_extends hs hs' hfaults htree hroot, hresolver⟩

/-- What was written in one run can be written again, and changes nothing. -/
theorem Writes.again {path text : String} {t : FileTree} (h : s.Writes cwd path text t)
    (hfaults : s'.faults = s.faults) (htree : s'.tree = t) : s'.Writes cwd path text t := by
  obtain ⟨t₁, hmade, hwritten⟩ := h.tree
  obtain ⟨p, hp, rfl⟩ := FileTree.write_eq_ok hwritten
  have hdirectory : ∃ q, t₁.stat cwd (Path.parent path) = .ok (q, .directory) := by
    have hstat := @FileTree.stat_makeDirectory s.tree cwd (Path.parent path)
    rw [hmade] at hstat
    exact hstat rfl
  obtain ⟨q, hq⟩ := hdirectory
  refine ⟨?_, ?_, t₁.set p (.file (Text.encodeUtf8 text)), ?_, hp.write_written _⟩
  · rw [refusal?, hfaults]
    exact h.makes
  · rw [refusal?, hfaults]
    exact h.stores
  · rw [htree]
    exact FileTree.makeDirectory_of_stat ((hp.extends_written _).stat_directory hq)

theorem Writes.extends {path text : String} {t : FileTree} (h : s.Writes cwd path text t) :
    s.tree.Extends t := by
  obtain ⟨t₁, hmade, hwritten⟩ := h.tree
  obtain ⟨p, hp, rfl⟩ := FileTree.write_eq_ok hwritten
  have hgains := FileTree.makeDirectory_parent_gains s.tree cwd path
  rw [hmade] at hgains
  exact hgains.extends.trans (hp.extends_written _)

theorem Writes.stat {path text : String} {t : FileTree} (h : s.Writes cwd path text t) :
    ∃ p, t.stat cwd path = .ok (p, .file (Text.encodeUtf8 text)) := by
  obtain ⟨p, hstat, -⟩ := h.delivers
  exact ⟨p, hstat⟩

theorem processFile_again (hs : s.Steady) {o : Options} {path file : String} {e : Entry}
    (hfile : fileOf (s.view cwd) path = .ok file)
    (hstat : s.tree.stat cwd path = .ok (Path.resolve [] file, e))
    (h : (processFile (workspace cwd) o path path).run s = (.ok (), s')) :
    ∃ s'', (processFile (workspace cwd) o path path).run s' = (.ok (), s'') ∧
      s''.tree = s'.tree := by
  obtain ⟨text, houtcome, hwrites, hakin⟩ := processFile_writes hs (Akin.refl s) h
  have hs' : s'.Steady := hakin.steady (hs.withTree s'.tree)
  have hfaults : s'.faults = s.faults := hakin.faults
  have hextends := hwrites.extends
  have hrun := houtcome
  rw [outcome_eq hs] at hrun
  obtain ⟨c, file', r, hc, hfile', hr⟩ := starts_of_outcomeOf hrun
  rw [hfile] at hfile'
  cases hfile'
  have hfile₁ : fileOf (s'.view cwd) path = .ok file :=
    canonicalOf_of_extends hs hs' hfaults hextends hfile
  have hr₁ : resolverOf (s'.view cwd) c = .ok r :=
    resolverOf_of_extends hs hs' hfaults hextends hr
  have hbytes : s'.tree.read cwd file = .ok (Text.encodeUtf8 text) := by
    obtain ⟨p, hp⟩ := hwrites.stat
    obtain ⟨e', -, hstat'⟩ := hextends.stat hstat
    rw [hp] at hstat'
    cases hstat'
    obtain ⟨names, rfl, hcanonical⟩ := canonical_of_fileOf hs' hfile₁
    rw [Path.resolve_render [] hcanonical.proper] at hp
    obtain ⟨e'', he'', hstat''⟩ := hcanonical.stat_eq cwd
    rw [(FileTree.stat_eq_ok_iff.mp hp).2] at he''
    cases he''
    rw [FileTree.read, hstat'']
  have hold : (s'.view cwd).textOf file = .ok text := by
    obtain ⟨tree, ⟨old, hread, -⟩, -⟩ := isTreeOf_of_outcomeOf (v := s.view cwd) hc hfile hr hrun
    have hmade := ((textOf_eq_ok_iff hs).mp hread).1
    refine (textOf_eq_ok_iff hs').mpr ⟨?_, _, hbytes, Text.decodeUtf8_encodeUtf8 text⟩
    rw [refusal?, hfaults]
    exact hmade
  have houtcome' := outcome_of_outcome hs hs' houtcome hc hfile₁ hr₁ hold hbytes
  exact exists_processFile_of_writes hs' (Akin.refl s') houtcome' (hwrites.again hfaults rfl)

/-- Expansion is idempotent. The text of a run has no directives, well-formed or not. A readable file
that holds it, on any machine, is expanded to the same text under every valid configuration whose
base directory can be made canonical. So a file that is processed into itself, by a path that leads
the system to the canonical input, stays as it is when that is done again. -/
theorem process_idempotent (hs : s.Steady) (cwd : Names) (o : Options) :
    (∀ input text, s.outcome cwd o input = .ok text →
      (∀ source, Directive.scan text source = .ok []) ∧
      ∀ (s' : Machine) (cwd' : Names) (o' : Options) (input' file : String) (c : Config)
        (r : Resolver), s'.Steady → Config.forInput cwd' o' input' = .ok c →
        fileOf (s'.view cwd') input' = .ok file → resolverOf (s'.view cwd') c = .ok r →
        (∃ old, (s'.view cwd').textOf file = .ok old) →
        s'.tree.read cwd' file = .ok (Text.encodeUtf8 text) →
        s'.outcome cwd' o' input' = .ok text) ∧
    ∀ path file e s₁, fileOf (s.view cwd) path = .ok file →
      s.tree.stat cwd path = .ok (Path.resolve [] file, e) →
      (processFile (workspace cwd) o path path).run s = (.ok (), s₁) →
      ∃ s₂, (processFile (workspace cwd) o path path).run s₁ = (.ok (), s₂) ∧
        s₂.tree = s₁.tree := by
  refine ⟨fun input text h => ⟨fun source => ?_, ?_⟩, ?_⟩
  · have hrun := h
    rw [outcome_eq hs] at hrun
    exact Directive.scan_of_plain (lines_of_outcomeOf hrun).2 source
  · rintro s' cwd' o' input' file c r hs' hc hfile hr ⟨old, hold⟩ hbytes
    exact outcome_of_outcome hs hs' h hc hfile hr hold hbytes
  · intro path file e s₁ hfile hstat hrun
    exact processFile_again hs hfile hstat hrun

theorem eq_of_fst {α β : Type} {x : α × β} {a : α} (h : x.1 = a) : x = (a, x.2) :=
  Prod.ext h rfl

def expanded : Machine :=
  { tree := ⟨[(["q"], .directory), (["q", "z"], .file (Text.encodeUtf8
      "# --- Included from b ---\ny\n# --- End of b ---\nx\n"))]⟩ }

theorem nested_process_idempotent :
    nested.Steady ∧ expanded.Steady ∧
    nested.outcome ["w"] { debug := .bool true } "a" =
      .ok "# --- Included from b ---\ny\n# --- End of b ---\nx\n" ∧
    expanded.outcome ["q"] {} "z" =
      .ok "# --- Included from b ---\ny\n# --- End of b ---\nx\n" ∧
    ∃ s₁ s₂, (processFile (workspace ["w"]) { debug := .bool true } "a" "a").run nested =
        (.ok (), s₁) ∧
      (processFile (workspace ["w"]) { debug := .bool true } "a" "a").run s₁ = (.ok (), s₂) ∧
      s₂.tree = s₁.tree := by
  have hs : nested.Steady := steady_of_faults_eq_nil rfl
  have hs' : expanded.Steady := steady_of_faults_eq_nil rfl
  obtain ⟨hruns, hplace⟩ := process_idempotent hs ["w"] { debug := .bool true }
  have houtcome : nested.outcome ["w"] { debug := .bool true } "a" =
      .ok "# --- Included from b ---\ny\n# --- End of b ---\nx\n" :=
    eq_ok_of_toOption (by decide +kernel)
  have hc : Config.forInput ["q"] {} "z" = .ok ⟨.bool false, .count 100, ["q"]⟩ := by cbv
  have hfile : fileOf (expanded.view ["q"]) "z" = .ok "/q/z" :=
    eq_ok_of_toOption (by decide +kernel)
  have hr : resolverOf (expanded.view ["q"]) ⟨.bool false, .count 100, ["q"]⟩ = .ok ⟨"/q"⟩ := by cbv
  have hold : (expanded.view ["q"]).textOf "/q/z" =
      .ok "# --- Included from b ---\ny\n# --- End of b ---\nx\n" :=
    eq_ok_of_toOption (by decide +kernel)
  have hbytes : expanded.tree.read ["q"] "/q/z" = .ok (Text.encodeUtf8
      "# --- Included from b ---\ny\n# --- End of b ---\nx\n") :=
    eq_ok_of_toOption (by decide +kernel)
  have hagain := (hruns "a" _ houtcome).2 expanded ["q"] {} "z" "/q/z" _ _ hs' hc hfile hr
    ⟨_, hold⟩ hbytes
  have hinput : fileOf (nested.view ["w"]) "a" = .ok "/w/a" :=
    eq_ok_of_toOption (by decide +kernel)
  have hstat : nested.tree.stat ["w"] "a" =
      .ok (Path.resolve [] "/w/a", .file (Text.encodeUtf8 "#include b\nx\n")) := by cbv
  have hfirst : ((processFile (workspace ["w"]) { debug := .bool true } "a" "a").run nested).1 =
      .ok () := eq_ok_of_toOption (by decide +kernel)
  obtain ⟨s₂, hsecond, htree⟩ := hplace "a" "/w/a" _ _ hinput hstat (eq_of_fst hfirst)
  exact ⟨hs, hs', houtcome, hagain, _, s₂, eq_of_fst hfirst, hsecond, htree⟩

/-- A directory `/w` with a link `d` into its directory `o`, and a file `x` in each of them. What the
path `d/../x` names and where it leads are not the same. -/
def detour : Machine :=
  { tree := ⟨[(["w"], .directory), (["w", "o"], .directory), (["w", "o", "dir"], .directory),
      (["w", "d"], .link "o/dir"), (["w", "x"], .file (Text.encodeUtf8 "#include o/x\nfoo\n")),
      (["w", "o", "x"], .file (Text.encodeUtf8 "bar\n"))]⟩ }

/-- A directory `/w` with an ordinary file `a`, and a link `l` that leads to the directory `/o/y` but
cannot be made canonical. -/
def detached : Machine :=
  { tree := ⟨[(["o"], .directory), (["o", "dir"], .directory), (["o", "y"], .directory),
      (["w"], .directory), (["w", "d"], .link "/o/dir"), (["w", "l"], .link "d/../y"),
      (["w", "a"], .file (Text.encodeUtf8 "x\n"))]⟩ }

/-- A file that is processed into itself may change once more, and a base directory that is there is
not enough for a text to be expanded to itself. -/
theorem detour_not_idempotent :
    (¬∀ path s₁, (processFile (workspace ["w"]) {} path path).run detour = (.ok (), s₁) →
      ∃ s₂, (processFile (workspace ["w"]) {} path path).run s₁ = (.ok (), s₂) ∧
        s₂.tree = s₁.tree) ∧
    detached.outcome ["w"] {} "/w/a" = .ok "x\n" ∧
    detached.tree.read ["w"] "/w/a" = .ok (Text.encodeUtf8 "x\n") ∧
    (((workspace ["w"]).exists? "/w/l").run detached).1 = true ∧
    Config.forInput ["w"] { baseDirectory := .text "/w/l" } "/w/a" =
      .ok ⟨.bool false, .count 100, ["w", "l"]⟩ ∧
    detached.outcome ["w"] { baseDirectory := .text "/w/l" } "/w/a" ≠ .ok "x\n" := by
  have hfirst : ((processFile (workspace ["w"]) {} "d/../x" "d/../x").run detour).1 = .ok () :=
    eq_ok_of_toOption (by decide +kernel)
  have hchanged : ((processFile (workspace ["w"]) {} "d/../x" "d/../x").run
      ((processFile (workspace ["w"]) {} "d/../x" "d/../x").run detour).2).2.tree ≠
      ((processFile (workspace ["w"]) {} "d/../x" "d/../x").run detour).2.tree := by
    decide +kernel
  refine ⟨fun h => ?_, eq_ok_of_toOption (by decide +kernel), eq_ok_of_toOption (by decide +kernel),
    by decide +kernel, by cbv, fun h => ?_⟩
  · obtain ⟨s₂, hsecond, htree⟩ := h "d/../x" _ (eq_of_fst hfirst)
    rw [hsecond] at hchanged
    exact hchanged htree
  · have hnone : (detached.outcome ["w"] { baseDirectory := .text "/w/l" } "/w/a").toOption =
        none := by decide +kernel
    rw [h] at hnone
    cases hnone

end Machine
end Inliner
