import Inliner.Proofs.Disclosure
import Inliner.Proofs.Idempotence

/-! A file of the tree of a run can be expanded on its own. With the result in its place, every tree
that it stood in keeps its flattening. -/
namespace Inliner
namespace IncludeTree

open IncludeGraph

def ofLines : List String → IncludeTree
  | [] => done
  | text :: rest => line text (ofLines rest)

@[simp] theorem flatten_ofLines (marks : Bool) (lines : List String) :
    (ofLines lines).flatten marks = lines := by
  induction lines with
  | nil => rfl
  | cons text rest ih => rw [ofLines, flatten, ih]

theorem grows_ofLines {v : Host Id} {r : Resolver} {path : String} {lines : List String}
    (h : ∀ line ∈ lines, Directive.readLine line = .plain) (number : Nat) :
    Grows v r path number lines (ofLines lines) := by
  induction lines generalizing number with
  | nil => exact .done
  | cons text rest ih =>
    refine .line (Directive.parseLine_eq_none_iff.mpr (h text (by simp))) ?_
    exact ih (fun l hl => h l (List.mem_cons_of_mem text hl)) (number + 1)

section expandable

variable {v : Host Id} {r : Resolver} {limit : Nat} {path target : String}

theorem Expandable.step (h : Expandable v r limit path) (ht : Includes v r path target) :
    Expandable v r limit target where
  sound file hfile := h.sound file (.head ht hfile)
  simple below hchain := (List.nodup_cons.mp (h.simple (target :: below) (.cons_cons ht hchain))).2
  short below hchain := by
    have hlength := h.short (target :: below) (.cons_cons ht hchain)
    simp only [List.length_cons] at hlength ⊢
    omega

theorem Expandable.below (h : Expandable v r limit path) {g : String}
    (hg : g ∈ Reachable v r path) : Expandable v r limit g := by
  induction hg with
  | refl => exact h
  | tail _ hlast ih => exact ih.step hlast

end expandable

/-- The second host answers as the first, except that the file `g` holds ordinary lines that are the
expansion of what it holds on the first. All files that a run comes to are in `files`. -/
structure Preexpanded (v v' : Host Id) (r : Resolver) (marks : Bool) (files : String → Prop)
    (g : String) (lines : List String) : Prop where
  targets : ∀ d, r.targetOf v' d = r.targetOf v d
  closed : ∀ d target, r.targetOf v d = .ok target → files target
  others : ∀ path, files path → path ≠ g → v'.textOf path = v.textOf path
  here : v'.textOf g = .ok (Text.renderLines lines)
  ordinary : ∀ line ∈ lines, Directive.Ordinary line
  expansion : ∃ tree, IsTreeOf v r tree g ∧ tree.flatten marks = lines

namespace Preexpanded

variable {v v' : Host Id} {r : Resolver} {marks : Bool} {files : String → Prop} {g : String}
  {lines : List String} (hp : Preexpanded v v' r marks files g lines)
include hp

theorem splitLines_here : Text.splitLines (Text.renderLines lines) = lines :=
  Text.splitLines_renderLines fun line hline => (hp.ordinary line hline).whole

theorem isTreeOf_here : IsTreeOf v' r (ofLines lines) g := by
  refine ⟨_, hp.here, ?_⟩
  rw [hp.splitLines_here]
  exact grows_ofLines (fun line hline => (hp.ordinary line hline).plain) 1

/-- A tree has another in its stead, in which every block of `g` has copied lines. -/
theorem exists_grows {path : String} {number : Nat} {text : List String} {tree : IncludeTree}
    (h : Grows v r path number text tree) :
    ∃ tree', Grows v' r path number text tree' ∧ tree'.flatten marks = tree.flatten marks := by
  induction h with
  | done => exact ⟨.done, .done, rfl⟩
  | @line path number text lines rest plain below ih =>
    obtain ⟨rest', hrest, hflat⟩ := ih
    exact ⟨.line text rest', .line plain hrest, by rw [flatten, flatten, hflat]⟩
  | @block path target content text number rest d inside below asks resolves reads within _ ihw ihb =>
    obtain ⟨below', hbelow, hflatBelow⟩ := ihb
    have hinside : ∃ inside' content', v'.textOf target = .ok content' ∧
        Grows v' r target 1 (Text.splitLines content') inside' ∧
        inside'.flatten marks = inside.flatten marks := by
      by_cases htarget : target = g
      · subst htarget
        obtain ⟨whole, hwhole, hlines⟩ := hp.expansion
        obtain rfl : inside = whole := hwhole.unique ⟨content, reads, within⟩
        obtain ⟨content', hcontent', hgrows⟩ := hp.isTreeOf_here
        exact ⟨_, content', hcontent', hgrows, by rw [flatten_ofLines, hlines]⟩
      · obtain ⟨inside', hinside', hflat⟩ := ihw
        have hreads := hp.others target (hp.closed d target resolves) htarget
        exact ⟨inside', content, hreads.trans reads, hinside', hflat⟩
    obtain ⟨inside', content', hreads, hgrows, hflat⟩ := hinside
    refine ⟨.block d.rawPath target inside' below', ?_, ?_⟩
    · exact .block asks ((hp.targets d).trans resolves) hreads hgrows hbelow
    · rw [flatten, flatten, hflat, hflatBelow]

theorem exists_isTreeOf {path : String} (hpath : files path) {tree : IncludeTree}
    (h : IsTreeOf v r tree path) :
    ∃ tree', IsTreeOf v' r tree' path ∧ tree'.flatten marks = tree.flatten marks := by
  by_cases hg : path = g
  · subst hg
    obtain ⟨whole, hwhole, hlines⟩ := hp.expansion
    obtain rfl : whole = tree := h.unique hwhole
    exact ⟨_, hp.isTreeOf_here, by rw [flatten_ofLines, hlines]⟩
  · obtain ⟨text, htext, hgrows⟩ := h
    obtain ⟨tree', hgrows', hflat⟩ := hp.exists_grows hgrows
    exact ⟨tree', ⟨text, (hp.others path hpath hg).trans htext, hgrows'⟩, hflat⟩

theorem parseLine_here {i : Nat} {line : String} (h : LineOf v' g i line) (number : Number) :
    Directive.parseLine line number g = .ok none := by
  have hline := h.of_text hp.here
  rw [hp.splitLines_here] at hline
  exact Directive.parseLine_eq_none_iff.mpr (hp.ordinary line (List.mem_of_getElem? hline)).plain

theorem includes {path target : String} (hpath : files path) (h : Includes v' r path target) :
    Includes v r path target := by
  obtain ⟨d, ⟨i, line, hline, hparse⟩, htarget⟩ := h
  by_cases hg : path = g
  · subst hg
    rw [hp.parseLine_here hline] at hparse
    cases hparse
  · obtain ⟨text, htext, hget⟩ := hline
    rw [hp.others path hpath hg] at htext
    exact ⟨d, ⟨i, line, ⟨text, htext, hget⟩, hparse⟩, (hp.targets d).symm.trans htarget⟩

theorem files_of_includes {path target : String} (h : Includes v r path target) :
    files target := by
  obtain ⟨d, -, htarget⟩ := h
  exact hp.closed d target htarget

theorem reachable {path file : String} (hpath : files path) (h : file ∈ Reachable v' r path) :
    file ∈ Reachable v r path ∧ files file := by
  induction h with
  | refl => exact ⟨.refl, hpath⟩
  | tail _ hlast ih =>
    have hincludes := hp.includes ih.2 hlast
    exact ⟨ih.1.tail hincludes, hp.files_of_includes hincludes⟩

theorem isChain {path : String} {below : List String} (hpath : files path)
    (h : (path :: below).IsChain (Includes v' r)) : (path :: below).IsChain (Includes v r) := by
  induction below generalizing path with
  | nil => exact .singleton path
  | cons target below ih =>
    obtain ⟨ht, htail⟩ := List.isChain_cons_cons.mp h
    have hincludes := hp.includes hpath ht
    exact .cons_cons hincludes (ih (hp.files_of_includes hincludes) htail)

theorem sound {path : String} (hpath : files path) (h : Sound v r path) : Sound v' r path := by
  by_cases hg : path = g
  · subst hg
    exact ⟨⟨_, hp.here⟩, fun i line hline => .inl (hp.parseLine_here hline _)⟩
  · have htext := hp.others path hpath hg
    refine ⟨by rw [htext]; exact h.readable, fun i line hline => ?_⟩
    obtain ⟨text, hread, hget⟩ := hline
    rw [htext] at hread
    rcases h.lines i line ⟨text, hread, hget⟩ with hplain | ⟨d, target, hparse, htarget⟩
    · exact .inl hplain
    · exact .inr ⟨d, target, hparse, (hp.targets d).trans htarget⟩

theorem expandable {limit : Nat} {path : String} (hpath : files path)
    (h : Expandable v r limit path) : Expandable v' r limit path where
  sound file hfile := by
    obtain ⟨hreach, hin⟩ := hp.reachable hpath hfile
    exact hp.sound hin (h.sound file hreach)
  simple below hchain := h.simple below (hp.isChain hpath hchain)
  short below hchain := h.short below (hp.isChain hpath hchain)

end Preexpanded
end IncludeTree

namespace Preprocessor

open IncludeTree

/-- A run ends with the same text when a file is expanded before. -/
theorem outcomeOf_of_preexpanded {v v' : Host Id} {o : Options} {input : String} {c : Config}
    {r : Resolver} {files : String → Prop} {g : String} {lines : List String}
    (hp : Preexpanded v v' r c.marks files g lines) {file : String}
    (hc : Config.forInput v.cwd o input = .ok c) (hfile : fileOf v input = .ok file)
    (hr : resolverOf v c = .ok r) (hcwd : v'.cwd = v.cwd) (hfile' : fileOf v' input = .ok file)
    (hr' : resolverOf v' c = .ok r) (hin : files file) {text : String}
    (h : outcomeOf v o input = .ok text) : outcomeOf v' o input = .ok text := by
  have hc' : Config.forInput v'.cwd o input = .ok c := by rw [hcwd]; exact hc
  obtain ⟨tree, htree, rfl⟩ := isTreeOf_of_outcomeOf hc hfile hr h
  have hexpandable := hp.expandable hin ((outcomeOf_eq_ok_iff hc hfile hr).mp ⟨_, h⟩)
  obtain ⟨text', htext'⟩ := (outcomeOf_eq_ok_iff hc' hfile' hr').mpr hexpandable
  obtain ⟨tree', htree', rfl⟩ := isTreeOf_of_outcomeOf hc' hfile' hr' htext'
  obtain ⟨other, hother, hflat⟩ := hp.exists_isTreeOf hin htree
  obtain rfl : other = tree' := htree'.unique hother
  rw [htext', hflat]

end Preprocessor

namespace Machine

open Preprocessor IncludeTree IncludeGraph

variable {s : Machine} {cwd : Names} {o : Options} {input : String}

/-- The lines that expanding `g` on the machine gives, or why there are none, while the files of the
ledger are open. -/
def linesOf (s : Machine) (cwd : Names) (r : Resolver) (debug : Bool) (l : Ledger) (g : String) :
    Except Thrown (List String) :=
  (((Expansion.expand (host cwd) r debug g).run l).run s).1.1

/-- The machine with a text in the file at a place. -/
def withText (s : Machine) (place : Names) (text : String) : Machine :=
  { s with tree := s.tree.set place (.file (Text.encodeUtf8 text)) }

theorem linesOf_eq (hs : s.Steady) (r : Resolver) (debug : Bool) (l : Ledger) (g : String) :
    s.linesOf cwd r debug l g =
      (Expansion.expandWithin (s.view cwd) r debug (l.capacity + 1) g).result l := by
  have hruns : s.settled.Runs (Expansion.expand (host cwd) r debug g)
      (Expansion.expand (s.view cwd) r debug g) :=
    (s.settled.runs_ledger).bind fun _ _ =>
      (host_corresponds hs cwd fun _ => True).expandWithin (fun _ _ _ => trivial) debug _ trivial
  obtain ⟨err, hrun⟩ := hruns l s.err
  rw [Ledgered.result, ← Expansion.run_expand]
  exact congrArg (fun p => p.1.1) hrun

theorem linesOf_unique (hs : s.Steady) {r : Resolver} {debug : Bool} {l l' : Ledger} {g : String}
    {lines lines' : List String} (h : s.linesOf cwd r debug l g = .ok lines)
    (h' : s.linesOf cwd r debug l' g = .ok lines') : lines = lines' := by
  rw [linesOf_eq hs] at h h'
  obtain ⟨tree, htree, rfl⟩ := isTreeOf_of_expandWithin h
  obtain ⟨tree', htree', rfl⟩ := isTreeOf_of_expandWithin h'
  rw [htree.unique htree']

/-- Where a path leads may be asked for again: a path is not refused to be made canonical if
another one that leads to it is not. -/
def Coherent (s : Machine) (cwd : Names) : Prop :=
  ∀ path names, s.Makes cwd .realpath path → s.tree.realpath cwd path = .ok names →
    Fault.take? .realpath (Path.render (Path.resolve cwd (Path.render names))) s.faults = none

theorem makes_of_refusal? {call : Call} {path : String} (h : s.refusal? cwd call path = none) :
    s.Makes cwd call path := by
  unfold refusal? at h
  split at h
  · cases h
  · rename_i hfree
    exact ⟨hfree, by simpa using h⟩

theorem fileOf_of_realpath (hs : s.Steady) (hcoherent : s.Coherent cwd) {path g text : String}
    (habs : Path.isAbsolute path = true) (hreal : (s.view cwd).realpath path = Except.ok g)
    (htext : (s.view cwd).textOf g = .ok text) : fileOf (s.view cwd) g = .ok g := by
  obtain ⟨names, rfl, hplace⟩ := exists_place_of_realpath hs hreal
  have hcanonical := FileTree.canonical_of_realpath habs hplace
  rw [answersIn_realpath hs] at hreal
  have hmakes : s.Makes cwd .realpath (Path.render names) :=
    ⟨hcoherent path names (makes_of_answer hreal) hplace,
      (makes_of_refusal? ((textOf_eq_ok_iff hs).mp htext).1).2⟩
  have hagain : (s.view cwd).realpath (Path.render names) = Except.ok (Path.render names) := by
    rw [answersIn_realpath hs, answer_of_makes hmakes, realpathIn,
      (FileTree.realpath_render_iff hcanonical.proper).mpr hcanonical]
  rw [fileOf, show (s.view cwd).cwd = cwd from rfl, Path.resolve_render cwd hcanonical.proper]
  exact Host.canonicalOf_eq_ok_iff.mpr hagain

theorem forInput_eq_of_base {base : String} (hbase : o.baseDirectory = .text base)
    (input' : String) : Config.forInput cwd o input' = Config.forInput cwd o input := by
  have hgiven (default : Value) : o.baseDirectory.orElse default = .text base := by
    rw [hbase]
    rfl
  rw [Config.forInput, Config.forInput, hgiven, hgiven]

theorem file_of_read {t : FileTree} {names : Names} (hcanonical : t.Canonical names)
    {bytes : Text.Bytes} (h : t.read cwd (Path.render names) = .ok bytes) :
    t.get? names = some (.file bytes) := by
  obtain ⟨e, he, hstat⟩ := hcanonical.stat_eq cwd
  rw [FileTree.read, hstat] at h
  cases e with
  | file content =>
    cases h
    exact he
  | link target => cases h
  | directory => cases h

section replaced

variable {names : Names} {old : Text.Bytes} (inner : String)

theorem withText_steady (hs : s.Steady) : (s.withText names inner).Steady := hs.withTree _

theorem get?_withText (hold : s.tree.get? names = some (.file old)) (p : Names) :
    (s.withText names inner).tree.get? p =
      if p = names then some (.file (Text.encodeUtf8 inner)) else s.tree.get? p := by
  have hne : names ≠ [] := by
    rintro rfl
    cases hold
  exact FileTree.get?_set s.tree hne p _

theorem alike_withText (hold : s.tree.get? names = some (.file old)) :
    s.tree.Alike (s.withText names inner).tree := by
  intro p
  rw [get?_withText inner hold]
  split
  · rename_i hp
    subst hp
    exact .inr ⟨old, _, hold, rfl⟩
  · exact .inl rfl

theorem read_withText (hs : s.Steady) (hold : s.tree.get? names = some (.file old)) {path : String}
    (hpath : s.MayRead cwd o input path) (hne : path ≠ Path.render names) :
    (s.withText names inner).tree.read cwd path = s.tree.read cwd path := by
  obtain ⟨e, hstat⟩ := hpath.stat hs
  refine (alike_withText inner hold).read_eq hstat ?_
  rw [get?_withText inner hold, if_neg]
  intro hsame
  obtain ⟨names', rfl, hcanonical'⟩ := hpath.exists_names hs
  rw [Path.resolve_render [] hcanonical'.proper] at hsame
  exact hne (by rw [hsame])

theorem textOf_withText (hs : s.Steady) (hcanonical : s.tree.Canonical names)
    (hold : s.tree.get? names = some (.file old)) {before : String}
    (hbefore : (s.view cwd).textOf (Path.render names) = .ok before) :
    ((s.withText names inner).view cwd).textOf (Path.render names) = .ok inner := by
  have hmade := ((textOf_eq_ok_iff hs).mp hbefore).1
  have hstat : (s.withText names inner).tree.stat cwd (Path.render names) =
      .ok (names, .file (Text.encodeUtf8 inner)) := by
    refine FileTree.stat_eq_ok_iff.mpr ⟨?_, by rw [get?_withText inner hold, if_pos rfl]⟩
    rw [(alike_withText inner hold).locate_eq]
    exact hcanonical.locate_eq cwd
  refine (textOf_eq_ok_iff (withText_steady inner hs)).mpr
    ⟨hmade, Text.encodeUtf8 inner, ?_, Text.decodeUtf8_encodeUtf8 inner⟩
  rw [FileTree.read, hstat]

variable {c : Config} {file : String} {r : Resolver} (hs : s.Steady)
  (hc : Config.forInput cwd o input = .ok c) (hfile : fileOf (s.view cwd) input = .ok file)
  (hr : resolverOf (s.view cwd) c = .ok r)
include hs hc hfile hr

theorem mayRead_of_reachable {g : String} (hg : g ∈ Reachable (s.view cwd) r file) :
    s.MayRead cwd o input g := by
  cases hg with
  | refl => exact .inl hfile
  | tail _ hlast =>
    obtain ⟨d, -, htarget⟩ := hlast
    exact mayRead_of_targetOf hs hc hr htarget

omit hc in
theorem exists_realpath_of_reachable {g : String} (hg : g ∈ Reachable (s.view cwd) r file) :
    ∃ path, Path.isAbsolute path = true ∧ (s.view cwd).realpath path = Except.ok g := by
  cases hg with
  | refl => exact ⟨_, Path.isAbsolute_render _, Host.canonicalOf_eq_ok_iff.mp hfile⟩
  | tail _ hlast =>
    obtain ⟨d, -, htarget⟩ := hlast
    obtain ⟨-, hreal, -⟩ := Resolver.targetOf_eq_ok_iff.mp htarget
    exact ⟨_, Resolver.isAbsolute_candidate (isAbsolute_of_resolverOf hs hr), hreal⟩

/-- With the expansion of a file in its place, a run ends with the same text. -/
theorem outcome_withText (hcanonical : s.tree.Canonical names)
    (hold : s.tree.get? names = some (.file old)) {tree : IncludeTree}
    (htree : IsTreeOf (s.view cwd) r tree (Path.render names)) {text : String}
    (h : s.outcome cwd o input = .ok text) :
    (s.withText names (Text.renderLines (tree.flatten c.marks))).outcome cwd o input =
      .ok text := by
  generalize hinner : Text.renderLines (tree.flatten c.marks) = inner
  have hcorresponds : ((s.withText names inner).view cwd).Corresponds .plain
      (fun path => s.MayRead cwd o input path ∧ path ≠ Path.render names) (s.view cwd) :=
    corresponds_of_alike hs (alike_withText inner hold)
      fun path hpath => read_withText inner hs hold hpath.1 hpath.2
  have hp : Preexpanded (s.view cwd) ((s.withText names inner).view cwd) r c.marks
      (s.MayRead cwd o input) (Path.render names) (tree.flatten c.marks) :=
    { targets := fun d => hcorresponds.resolve r d
      closed := fun d target htarget => mayRead_of_targetOf hs hc hr htarget
      others := fun path hpath hne => (hcorresponds.read path ⟨hpath, hne⟩).onPath
      here := by
        obtain ⟨before, hbefore, -⟩ := htree
        rw [hinner]
        exact textOf_withText inner hs hcanonical hold hbefore
      ordinary := htree.ordinary c.marks
      expansion := ⟨tree, htree, rfl⟩ }
  have hfile' : fileOf ((s.withText names inner).view cwd) input = .ok file :=
    (hcorresponds.canonicalize _ none).trans hfile
  have hr' : resolverOf ((s.withText names inner).view cwd) c = .ok r :=
    (hcorresponds.ofBase _).trans hr
  rw [outcome_eq hs] at h
  rw [outcome_eq (withText_steady inner hs)]
  exact outcomeOf_of_preexpanded hp hc hfile hr hcorresponds.cwd hfile' hr' (.inl hfile) h

end replaced

/-- Expanding an included file beforehand changes nothing. For every file of the include tree of a
run that gives a text under an explicit base directory, the input among them, a run on that file
gives a text too, and with this text in the file the first run gives what it gave before. The lines
that a file is expanded to are the same whichever files are open and however many. -/
theorem process_preexpanded {s : Machine} (hs : s.Steady) {cwd : Names} (hcoherent : s.Coherent cwd)
    {o : Options} {base : String} (hbase : o.baseDirectory = .text base) {input text : String}
    (h : s.outcome cwd o input = .ok text) :
    (∃ c file r, Config.forInput cwd o input = .ok c ∧ fileOf (s.view cwd) input = .ok file ∧
      resolverOf (s.view cwd) c = .ok r ∧
      ∀ g ∈ Reachable (s.view cwd) r file,
        ∃ old inner, s.tree.get? (Path.resolve [] g) = some (.file old) ∧
          s.outcome cwd o g = .ok inner ∧
          (s.withText (Path.resolve [] g) inner).outcome cwd o input = .ok text) ∧
    ∀ r debug g l l' lines lines', s.linesOf cwd r debug l g = .ok lines →
      s.linesOf cwd r debug l' g = .ok lines' → lines = lines' := by
  refine ⟨?_, fun r debug g l l' lines lines' hl hl' => linesOf_unique hs hl hl'⟩
  have hrun := h
  rw [outcome_eq hs] at hrun
  obtain ⟨c, file, r, hc, hfile, hr⟩ := starts_of_outcomeOf hrun
  refine ⟨c, file, r, hc, hfile, hr, fun g hg => ?_⟩
  have hexpandable : Expandable (s.view cwd) r c.maxIncludeDepth.floorNat g :=
    ((outcomeOf_eq_ok_iff (v := s.view cwd) hc hfile hr).mp ⟨text, hrun⟩).below hg
  obtain ⟨names, rfl, hcanonical⟩ := (mayRead_of_reachable hs hc hfile hr hg).exists_names hs
  obtain ⟨before, hbefore⟩ := (hexpandable.sound _ .refl).readable
  obtain ⟨-, old, hread, -⟩ := (textOf_eq_ok_iff hs).mp hbefore
  have hold := file_of_read hcanonical hread
  have hc' : Config.forInput cwd o (Path.render names) = .ok c :=
    (forInput_eq_of_base hbase _).trans hc
  obtain ⟨path, habs, hreal⟩ := exists_realpath_of_reachable hs hfile hr hg
  have hfile' := fileOf_of_realpath hs hcoherent habs hreal hbefore
  obtain ⟨inner, hinner⟩ :=
    (outcomeOf_eq_ok_iff (v := s.view cwd) hc' hfile' hr).mpr hexpandable
  obtain ⟨tree, htree, hlines⟩ := isTreeOf_of_outcomeOf (v := s.view cwd) hc' hfile' hr hinner
  rw [Path.resolve_render [] hcanonical.proper]
  refine ⟨old, inner, hold, (outcome_eq hs cwd o _).trans hinner, ?_⟩
  rw [hlines]
  exact outcome_withText hs hc hfile hr hcanonical hold htree h

def tower : Machine :=
  { tree := ⟨[(["w"], .directory), (["w", "a"], .file (Text.encodeUtf8 "#include b\nx\n")),
      (["w", "b"], .file (Text.encodeUtf8 "#include c\ny")),
      (["w", "c"], .file (Text.encodeUtf8 "z"))]⟩ }

theorem tower_includes : Includes (tower.view ["w"]) ⟨"/w"⟩ "/w/a" "/w/b" := by
  let d : Directive := ⟨.count 1, "b", .bare, "/w/a"⟩
  have htext : (tower.view ["w"]).textOf "/w/a" = .ok "#include b\nx\n" :=
    eq_ok_of_toOption (by decide +kernel)
  have hline : (Text.splitLines "#include b\nx\n")[0]? = some "#include b" := by decide
  have hparse : Directive.parseLine "#include b" (.count (0 + 1)) "/w/a" = .ok (some d) := by cbv
  have htarget : Resolver.targetOf ⟨"/w"⟩ (tower.view ["w"]) d = .ok "/w/b" :=
    eq_ok_of_toOption (by decide +kernel)
  exact ⟨d, ⟨0, "#include b", ⟨_, htext, hline⟩, hparse⟩, htarget⟩

theorem tower_process_preexpanded :
    let o : Options := { baseDirectory := .text "/w" }
    tower.Steady ∧ tower.Coherent ["w"] ∧
    tower.outcome ["w"] o "a" = .ok "z\ny\nx\n" ∧
    ∃ old inner, tower.tree.get? (Path.resolve [] "/w/b") = some (.file old) ∧
      tower.outcome ["w"] o "/w/b" = .ok inner ∧
      (tower.withText (Path.resolve [] "/w/b") inner).outcome ["w"] o "a" = .ok "z\ny\nx\n" := by
  intro o
  have hs : tower.Steady := steady_of_faults_eq_nil rfl
  have hcoherent : tower.Coherent ["w"] := fun _ _ _ _ => rfl
  have houtcome : tower.outcome ["w"] o "a" = .ok "z\ny\nx\n" :=
    eq_ok_of_toOption (by decide +kernel)
  obtain ⟨⟨c, file, r, hc, hfile, hr, hbelow⟩, -⟩ := process_preexpanded hs hcoherent rfl houtcome
  have hc' : Config.forInput ["w"] o "a" = .ok ⟨.bool false, .count 100, ["w"]⟩ := by cbv
  have hfile' : fileOf (tower.view ["w"]) "a" = .ok "/w/a" :=
    eq_ok_of_toOption (by decide +kernel)
  have hr' : resolverOf (tower.view ["w"]) ⟨.bool false, .count 100, ["w"]⟩ = .ok ⟨"/w"⟩ := by cbv
  rw [hc'] at hc
  cases hc
  rw [hfile'] at hfile
  cases hfile
  rw [hr'] at hr
  cases hr
  exact ⟨hs, hcoherent, houtcome, hbelow "/w/b" (.single tower_includes)⟩

end Machine
end Inliner
