import Inliner.Proofs.IncludeGraph
import Inliner.Proofs.Steady

/-! The tree of includes below a file and its flattening. A run returns a text exactly if the files
are sound and the chains short and simple, and then the text is the flattening. -/
namespace Inliner

/-- The lines of a file from some line on, with the trees of the files included in them. -/
inductive IncludeTree where
  | done
  | line (text : String) (rest : IncludeTree)
  | block (rawPath : String) (target : String) (inside rest : IncludeTree)
  deriving Repr, DecidableEq

namespace IncludeTree

open Ledgered Expansion IncludeGraph

/-- Depth first and in line order; with `marks`, each block stands between its markers. -/
def flatten (marks : Bool) : IncludeTree → List String
  | done => []
  | line text rest => text :: rest.flatten marks
  | block rawPath _ inside rest =>
    let lines := inside.flatten marks
    (if marks then [Directive.beginMarker rawPath] ++ lines ++ [Directive.endMarker rawPath]
      else lines) ++ rest.flatten marks

variable (v : Host Id) (r : Resolver)

/-- The tree of `lines`, which stand in `path` from line `number` on. -/
inductive Grows : (path : String) → (number : Nat) → (lines : List String) → IncludeTree → Prop
  | done {path : String} {number : Nat} : Grows path number [] .done
  | line {path : String} {number : Nat} {text : String} {lines : List String} {rest : IncludeTree}
      (plain : Directive.parseLine text (.count number) path = .ok none)
      (below : Grows path (number + 1) lines rest) :
      Grows path number (text :: lines) (.line text rest)
  | block {path target content text : String} {number : Nat} {lines : List String}
      {d : Directive} {inside rest : IncludeTree}
      (asks : Directive.parseLine text (.count number) path = .ok (some d))
      (resolves : r.targetOf v d = .ok target) (reads : v.textOf target = .ok content)
      (within : Grows target 1 (Text.splitLines content) inside)
      (below : Grows path (number + 1) lines rest) :
      Grows path number (text :: lines) (.block d.rawPath target inside rest)

/-- The tree is that of the whole file. -/
def IsTreeOf (tree : IncludeTree) (path : String) : Prop :=
  ∃ text, v.textOf path = .ok text ∧ Grows v r path 1 (Text.splitLines text) tree

/-- What it takes to expand a file, as a property of the files below it and the chains on which
they are reached. -/
structure Expandable (limit : Nat) (path : String) : Prop where
  sound : ∀ file ∈ Reachable v r path, Sound v r file
  simple : ∀ below, (path :: below).IsChain (Includes v r) → (path :: below).Nodup
  short : ∀ below, (path :: below).IsChain (Includes v r) → (path :: below).length ≤ limit

variable {v r}

theorem expandable_iff {limit : Nat} {path : String} :
    Expandable v r limit path ↔
      (∀ file ∈ Reachable v r path, Sound v r file) ∧ Fits v r limit [path] path := by
  have hnodup (below : List String) : (below.reverse ++ [path]).Nodup ↔ (path :: below).Nodup := by
    rw [← List.reverse_cons, List.nodup_reverse]
  constructor
  · intro h
    exact ⟨h.sound, fun below hchain => ⟨(hnodup below).mpr (h.simple below hchain),
      h.short below hchain⟩⟩
  · rintro ⟨hsound, hfits⟩
    exact ⟨hsound, fun below hchain => (hnodup below).mp (hfits below hchain).1,
      fun below hchain => (hfits below hchain).2⟩

theorem Grows.unique {path : String} {number : Nat} {lines : List String} {tree other : IncludeTree}
    (h : Grows v r path number lines tree) (ho : Grows v r path number lines other) :
    other = tree := by
  induction h generalizing other with
  | done => cases ho; rfl
  | line plain below ih =>
    cases ho with
    | line plain' below' => rw [ih below']
    | block asks' => rw [plain] at asks'; cases asks'
  | block asks resolves reads within below ihw ihb =>
    cases ho with
    | line plain' => rw [asks] at plain'; cases plain'
    | block asks' resolves' reads' within' below' =>
      rw [asks] at asks'
      cases asks'
      rw [resolves] at resolves'
      cases resolves'
      rw [reads] at reads'
      cases reads'
      rw [ihw within', ihb below']

theorem IsTreeOf.unique {tree other : IncludeTree} {path : String}
    (h : IsTreeOf v r tree path) (ho : IsTreeOf v r other path) : other = tree := by
  obtain ⟨text, htext, hgrows⟩ := h
  obtain ⟨text', htext', hgrows'⟩ := ho
  rw [htext] at htext'
  cases htext'
  exact hgrows.unique hgrows'

/-- Expanded lines are the flattening of the tree of the lines, if that is so of the files that are
expanded in them. -/
theorem grows_of_expandLines {debug : Bool} {path : String}
    {expandFile : String → Ledgered Id (List String)}
    (hf : ∀ target, (expandFile target).Restores)
    (htree : ∀ target l lines, (expandFile target).result l = .ok lines →
      ∃ tree, IsTreeOf v r tree target ∧ lines = tree.flatten debug)
    {l : Ledger} {number : Nat} {lines out : List String}
    (h : (expandLines v r debug path expandFile number lines).result l = .ok out) :
    ∃ tree, Grows v r path number lines tree ∧ out = tree.flatten debug := by
  induction lines generalizing number out with
  | nil => cases h; exact ⟨.done, .done, rfl⟩
  | cons line rest ih =>
    rw [result_expandLines_cons v r debug path hf] at h
    cases hpiece : piece v r debug path expandFile l number line with
    | error e => rw [hpiece] at h; cases h
    | ok here =>
      cases hmore : (expandLines v r debug path expandFile (number + 1) rest).result l with
      | error e => rw [hpiece, hmore] at h; cases h
      | ok more =>
        rw [hpiece, hmore] at h
        cases h
        obtain ⟨below, hbelow, rfl⟩ := ih hmore
        rcases (piece_eq_ok_iff v r debug path).mp hpiece with
          ⟨hp, rfl⟩ | ⟨d, target, l', lines, hp, ht, -, hlines, rfl⟩
        · exact ⟨.line line below, .line hp hbelow, rfl⟩
        · obtain ⟨inside, ⟨content, hcontent, hinside⟩, rfl⟩ := htree target l' lines hlines
          refine ⟨.block d.rawPath target inside below, .block hp ht hcontent hinside hbelow, ?_⟩
          rw [flatten, Expansion.block]
          rfl

theorem isTreeOf_of_expandWithin {debug : Bool} {room : Nat} {path : String} {l : Ledger}
    {lines : List String} (h : (expandWithin v r debug room path).result l = .ok lines) :
    ∃ tree, IsTreeOf v r tree path ∧ lines = tree.flatten debug := by
  induction room generalizing path l lines with
  | zero => cases h
  | succ room ih =>
    obtain ⟨text, htext, hlines⟩ := (result_expandWithin_succ_eq_ok_iff v r debug path).mp h
    obtain ⟨tree, hgrows, hout⟩ := grows_of_expandLines
      (fun target => restores_expandWithin v r debug target room)
      (fun target l lines h => ih h) hlines
    exact ⟨tree, ⟨text, htext, hgrows⟩, hout⟩

end IncludeTree

namespace Preprocessor

open IncludeGraph IncludeTree

variable {v : Host Id} {o : Options} {input : String} {c : Config} {file : String} {r : Resolver}

theorem outcomeOf_eq_ok_iff (hc : Config.forInput v.cwd o input = .ok c)
    (hfile : fileOf v input = .ok file) (hr : resolverOf v c = .ok r) :
    (∃ text, outcomeOf v o input = .ok text) ↔
      Expandable v r c.maxIncludeDepth.floorNat file := by
  have hpos := Config.isPositiveInteger_of_forInput hc
  have hexpand := @expandWithin_eq_ok_iff v r c.marks (c.maxIncludeDepth.floorNat + 1) _ file
    (kept_opening hpos file) (by rw [opening_depth, opening_capacity]; omega)
  rw [opening_opened, opening_capacity] at hexpand
  rw [outcomeOf_eq v o input hc hfile hr, expandable_iff, ← hexpand]
  simp only [map_eq_ok_iff]
  constructor
  · rintro ⟨text, lines, hlines, -⟩
    exact ⟨lines, hlines⟩
  · rintro ⟨lines, hlines⟩
    exact ⟨_, lines, hlines, rfl⟩

theorem isTreeOf_of_outcomeOf (hc : Config.forInput v.cwd o input = .ok c)
    (hfile : fileOf v input = .ok file) (hr : resolverOf v c = .ok r) {text : String}
    (h : outcomeOf v o input = .ok text) :
    ∃ tree, IsTreeOf v r tree file ∧ text = Text.renderLines (tree.flatten c.marks) := by
  rw [outcomeOf_eq v o input hc hfile hr] at h
  obtain ⟨lines, hlines, rfl⟩ := map_eq_ok_iff.mp h
  obtain ⟨tree, htree, rfl⟩ := isTreeOf_of_expandWithin hlines
  exact ⟨tree, htree, rfl⟩

/-- A run on a valid configuration whose input and base directory can be made canonical returns a
text exactly if the input is expandable, and the text is the flattening of the one tree it has. -/
theorem process_eq_flatten {s : Machine} (hs : s.Steady) {cwd : Names}
    (hc : Config.forInput cwd o input = .ok c) (hfile : fileOf (s.view cwd) input = .ok file)
    (hr : resolverOf (s.view cwd) c = .ok r) :
    ((∃ text, s.outcome cwd o input = .ok text) ↔
      Expandable (s.view cwd) r c.maxIncludeDepth.floorNat file) ∧
    ∀ text, s.outcome cwd o input = .ok text →
      ∃ tree, IsTreeOf (s.view cwd) r tree file ∧
        (∀ other, IsTreeOf (s.view cwd) r other file → other = tree) ∧
        text = Text.renderLines (tree.flatten c.marks) := by
  rw [Machine.outcome_eq hs]
  refine ⟨outcomeOf_eq_ok_iff (v := s.view cwd) hc hfile hr, fun text h => ?_⟩
  obtain ⟨tree, htree, htext⟩ := isTreeOf_of_outcomeOf (v := s.view cwd) hc hfile hr h
  exact ⟨tree, htree, fun other ho => htree.unique ho, htext⟩

def nested : Machine :=
  { tree := ⟨[(["w"], .directory), (["w", "a"], .file (Text.encodeUtf8 "#include b\nx\n")),
      (["w", "b"], .file (Text.encodeUtf8 "y"))]⟩ }

theorem nested_process_eq_flatten :
    let o : Options := { debug := .bool true, maxIncludeDepth := .number (.count 2) }
    let c : Config := ⟨.bool true, .count 2, ["w"]⟩
    let v := nested.view ["w"]
    Config.forInput ["w"] o "a" = .ok c ∧ fileOf v "a" = .ok "/w/a" ∧
    resolverOf v c = .ok ⟨"/w"⟩ ∧
    ((∃ text, nested.outcome ["w"] o "a" = .ok text) ↔ Expandable v ⟨"/w"⟩ 2 "/w/a") ∧
    ∀ text, nested.outcome ["w"] o "a" = .ok text →
      ∃ tree, IsTreeOf v ⟨"/w"⟩ tree "/w/a" ∧
        (∀ other, IsTreeOf v ⟨"/w"⟩ other "/w/a" → other = tree) ∧
        text = Text.renderLines (tree.flatten true) := by
  intro o c v
  have hc : Config.forInput ["w"] o "a" = .ok c := by cbv
  have hfile : fileOf v "a" = .ok "/w/a" := by cbv
  have hr : resolverOf v c = .ok ⟨"/w"⟩ := by cbv
  exact ⟨hc, hfile, hr, process_eq_flatten (Machine.steady_of_faults_eq_nil rfl) hc hfile hr⟩

end Preprocessor
end Inliner
