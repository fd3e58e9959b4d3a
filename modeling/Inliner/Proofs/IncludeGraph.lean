import Inliner.Proofs.Expansion

/-! The graph of files and what their directives stand for. Whether an expansion succeeds depends on
it alone, since the open files are a chain of it. -/
namespace Inliner
namespace IncludeGraph

open Ledgered Expansion Relation

variable (v : Host Id) (r : Resolver)

/-- Line `i` of a file that can be read, counted from zero. -/
def LineOf (path : String) (i : Nat) (line : String) : Prop :=
  ∃ text, v.textOf path = .ok text ∧ (Text.splitLines text)[i]? = some line

def DirectiveOf (path : String) (d : Directive) : Prop :=
  ∃ i line, LineOf v path i line ∧ Directive.parseLine line (.count (i + 1)) path = .ok (some d)

/-- A directive of the first file resolves to the second. -/
def Includes (path target : String) : Prop :=
  ∃ d, DirectiveOf v path d ∧ r.targetOf v d = .ok target

/-- The files that expansion of `path` can come to. -/
def Reachable (path : String) : Set String := {file | ReflTransGen (Includes v r) path file}

/-- A readable file, each line of which is ordinary or a well-formed directive that resolves. -/
structure Sound (path : String) : Prop where
  readable : ∃ text, v.textOf path = .ok text
  lines : ∀ i line, LineOf v path i line →
    Directive.parseLine line (.count (i + 1)) path = .ok none ∨
    ∃ d target, Directive.parseLine line (.count (i + 1)) path = .ok (some d) ∧
      r.targetOf v d = .ok target

/-- Files that `path` leads to can be opened one inside the other while those of `opened` are:
none of them comes twice, and there are at most `limit`. -/
def Fits (limit : Nat) (opened : List String) (path : String) : Prop :=
  ∀ below, (path :: below).IsChain (Includes v r) →
    (below.reverse ++ opened).Nodup ∧ below.length + opened.length ≤ limit

variable {v r}

theorem LineOf.of_text {path text : String} {i : Nat} {line : String} (h : LineOf v path i line)
    (htext : v.textOf path = .ok text) : (Text.splitLines text)[i]? = some line := by
  obtain ⟨text', htext', hline⟩ := h
  rw [htext] at htext'
  cases htext'
  exact hline

theorem Fits.step {limit : Nat} {opened : List String} {path target : String}
    (h : Fits v r limit opened path) (ht : Includes v r path target) :
    Fits v r limit (target :: opened) target := by
  intro below hchain
  have hbelow := h (target :: below) (.cons_cons ht hchain)
  refine ⟨by simpa using hbelow.1, ?_⟩
  have hlength := hbelow.2
  simp only [List.length_cons] at hlength ⊢
  omega

theorem fits_of_steps {limit : Nat} {opened : List String} {path : String}
    (hnodup : opened.Nodup) (hlength : opened.length ≤ limit)
    (h : ∀ target, Includes v r path target → Fits v r limit (target :: opened) target) :
    Fits v r limit opened path := by
  intro below hchain
  cases below with
  | nil => exact ⟨by simpa using hnodup, by simpa using hlength⟩
  | cons target below =>
    obtain ⟨ht, htail⟩ := List.isChain_cons_cons.mp hchain
    have hbelow := h target ht below htail
    refine ⟨by simpa using hbelow.1, ?_⟩
    have hlength' := hbelow.2
    simp only [List.length_cons] at hlength' ⊢
    omega

theorem Fits.target {limit : Nat} {opened : List String} {path target : String}
    (h : Fits v r limit opened path) (ht : Includes v r path target) :
    target ∉ opened ∧ opened.length < limit := by
  have hone := h [target] (.cons_cons ht (.singleton target))
  simp only [List.reverse_singleton, List.singleton_append, List.nodup_cons,
    List.length_singleton] at hone
  exact ⟨hone.1.1, by omega⟩

variable (debug : Bool)

theorem exists_piece_iff {l : Ledger} (hl : l.Kept) (path : String)
    (expandFile : String → Ledgered Id (List String)) (number : Nat) (line : String) :
    (∃ here, piece v r debug path expandFile l number line = .ok here) ↔
      Directive.parseLine line (.count number) path = .ok none ∨
      ∃ d target, Directive.parseLine line (.count number) path = .ok (some d) ∧
        r.targetOf v d = .ok target ∧ target ∉ l.opened ∧ l.depth < l.capacity ∧
        ∃ lines, (expandFile target).result (l.push target) = .ok lines := by
  simp only [piece_eq_ok_iff, hl.enter_eq_ok_iff]
  constructor
  · rintro ⟨here, ⟨hp, -⟩ | ⟨d, target, l', lines, hp, ht, ⟨hnew, hless, rfl⟩, hlines, -⟩⟩
    · exact .inl hp
    · exact .inr ⟨d, target, hp, ht, hnew, hless, lines, hlines⟩
  · rintro (hp | ⟨d, target, hp, ht, hnew, hless, lines, hlines⟩)
    · exact ⟨[line], .inl ⟨hp, rfl⟩⟩
    · exact ⟨_, .inr ⟨d, target, _, lines, hp, ht, ⟨hnew, hless, rfl⟩, hlines, rfl⟩⟩

/-- One level of an expansion: the file is sound, and each file it includes can be opened and is
expanded. -/
theorem expandWithin_succ_eq_ok_iff {l : Ledger} (hl : l.Kept) (room : Nat) (path : String) :
    (∃ lines, (expandWithin v r debug (room + 1) path).result l = .ok lines) ↔
      Sound v r path ∧ ∀ target, Includes v r path target →
        target ∉ l.opened ∧ l.depth < l.capacity ∧
        ∃ lines, (expandWithin v r debug room target).result (l.push target) = .ok lines := by
  have hlines (text : String) := result_expandLines_eq_ok_iff v r debug path
    (fun target => restores_expandWithin v r debug target room) l 1 (Text.splitLines text)
  simp only [exists_piece_iff debug hl, Nat.add_comm 1] at hlines
  constructor
  · rintro ⟨lines, h⟩
    obtain ⟨text, htext, h⟩ := (result_expandWithin_succ_eq_ok_iff v r debug path).mp h
    have hpieces := (hlines text).mp ⟨lines, h⟩
    refine ⟨⟨⟨text, htext⟩, fun i line hi => ?_⟩, fun target ht => ?_⟩
    · rcases hpieces i line (hi.of_text htext) with hp | ⟨d, target, hp, ht, -⟩
      · exact .inl hp
      · exact .inr ⟨d, target, hp, ht⟩
    · obtain ⟨d, ⟨i, line, hi, hp⟩, ht⟩ := ht
      rcases hpieces i line (hi.of_text htext) with hp' | ⟨d', target', hp', ht', hopen⟩
      · rw [hp] at hp'
        cases hp'
      · rw [hp] at hp'
        cases hp'
        rw [ht] at ht'
        cases ht'
        exact hopen
  · rintro ⟨hsound, hopen⟩
    obtain ⟨text, htext⟩ := hsound.readable
    have hpieces : ∃ lines, (expandLines v r debug path (expandWithin v r debug room) 1
        (Text.splitLines text)).result l = .ok lines := by
      refine (hlines text).mpr fun i line hi => ?_
      have hof : LineOf v path i line := ⟨text, htext, hi⟩
      rcases hsound.lines i line hof with hp | ⟨d, target, hp, ht⟩
      · exact .inl hp
      · exact .inr ⟨d, target, hp, ht, hopen target ⟨d, ⟨i, line, hof, hp⟩, ht⟩⟩
    obtain ⟨lines, h⟩ := hpieces
    exact ⟨lines, (result_expandWithin_succ_eq_ok_iff v r debug path).mpr ⟨text, htext, h⟩⟩

/-- An expansion with enough room succeeds exactly on a graph of sound files that fits. -/
theorem expandWithin_eq_ok_iff {room : Nat} {l : Ledger} {path : String} (hl : l.Kept)
    (hroom : l.capacity < room + l.depth) :
    (∃ lines, (expandWithin v r debug room path).result l = .ok lines) ↔
      (∀ file ∈ Reachable v r path, Sound v r file) ∧ Fits v r l.capacity l.opened path := by
  induction room generalizing path l with
  | zero =>
    have hdepth := hl.depth_le
    omega
  | succ room ih =>
    have hbelow {target : String} (hnew : target ∉ l.opened) (hless : l.depth < l.capacity) :=
      @ih (l.push target) target (hl.push hnew hless)
        (by simp only [Ledger.push_depth, Ledger.push_capacity]; omega)
    rw [expandWithin_succ_eq_ok_iff debug hl]
    constructor
    · rintro ⟨hsound, htargets⟩
      have hopen (target : String) (ht : Includes v r path target) :=
        (hbelow (htargets target ht).1 (htargets target ht).2.1).mp (htargets target ht).2.2
      refine ⟨fun file hfile => ?_,
        fits_of_steps hl.nodup hl.depth_le fun target ht => (hopen target ht).2⟩
      rcases ReflTransGen.cases_head hfile with rfl | ⟨target, ht, hrest⟩
      · exact hsound
      · exact (hopen target ht).1 file hrest
    · rintro ⟨hsound, hfits⟩
      refine ⟨hsound path .refl, fun target ht => ?_⟩
      obtain ⟨hnew, hless⟩ := hfits.target ht
      refine ⟨hnew, hless, (hbelow hnew hless).mpr ⟨fun file hfile => ?_, hfits.step ht⟩⟩
      exact hsound file (ReflTransGen.head ht hfile)

end IncludeGraph
end Inliner
