import Inliner.Proofs.Confinement
import Inliner.Proofs.DepthLimit

/-! The files open inside the input are distinct regular files below the base directory, so there
are never more of them than such files, however high the limit. -/
namespace Inliner

namespace FileTree

def isRegular (t : FileTree) (p : Names) : Bool :=
  match t.get? p with
  | some (.file _) => true
  | _ => false

def filesBelow (t : FileTree) (root : Names) : Finset Names :=
  (t.entries.map Prod.fst).toFinset.filter fun p => root <+: p ∧ t.isRegular p = true

theorem isRegular_iff {t : FileTree} {p : Names} :
    t.isRegular p = true ↔ ∃ content, t.get? p = some (.file content) := by
  unfold isRegular
  split
  · rename_i content hget
    simp [hget]
  · rename_i hnot
    simp only [Bool.false_eq_true, false_iff, not_exists]
    exact hnot

theorem mem_entries_of_get? {t : FileTree} {p : Names} {e : Entry} (hne : p ≠ [])
    (h : t.get? p = some e) : p ∈ t.entries.map Prod.fst := by
  rw [get?, if_neg hne] at h
  obtain ⟨before, after, hentries, -⟩ := List.lookup_eq_some_iff.mp h
  simp [hentries]

theorem mem_filesBelow {t : FileTree} {root p : Names} :
    p ∈ t.filesBelow root ↔ root <+: p ∧ ∃ content, t.get? p = some (.file content) := by
  simp only [filesBelow, Finset.mem_filter, isRegular_iff, List.mem_toFinset]
  constructor
  · exact fun h => h.2
  · rintro ⟨hbelow, content, hget⟩
    have hne : p ≠ [] := by
      rintro rfl
      cases hget
    exact ⟨mem_entries_of_get? hne hget, hbelow, content, hget⟩

end FileTree

namespace Machine

/-- Distinct targets of directives are distinct files below the root. -/
theorem length_le_card {s : Machine} (hs : s.Steady) {cwd : Names} {c : Config} {r : Resolver}
    (hr : Preprocessor.resolverOf (s.view cwd) c = .ok r) {targets : List String}
    (hnodup : targets.Nodup) (htargets : ∀ target ∈ targets, r.IsTarget (s.view cwd) target) :
    targets.length ≤ (s.tree.filesBelow (Path.resolve [] r.root)).card := by
  have hroot := isAbsolute_of_resolverOf hs hr
  have hplace {target : String} (h : target ∈ targets) :
      target = Path.render (Path.resolve [] target) ∧
        Path.resolve [] target ∈ s.tree.filesBelow (Path.resolve [] r.root) := by
    obtain ⟨d, hd⟩ := htargets target h
    obtain ⟨names, content, rfl, hcanonical, hget, hbelow⟩ := regular_of_targetOf hs hroot hd
    rw [Path.resolve_render [] hcanonical.proper]
    exact ⟨rfl, FileTree.mem_filesBelow.mpr ⟨hbelow, content, hget⟩⟩
  have hplaces : (targets.map (Path.resolve [])).Nodup := by
    refine hnodup.map_on fun a ha b hb hab => ?_
    rw [(hplace ha).1, (hplace hb).1, hab]
  have hsubset : (targets.map (Path.resolve [])).toFinset ⊆
      s.tree.filesBelow (Path.resolve [] r.root) := by
    intro p hp
    obtain ⟨target, htarget, rfl⟩ := List.mem_map.mp (List.mem_toFinset.mp hp)
    exact (hplace htarget).2
  calc targets.length = (targets.map (Path.resolve [])).toFinset.card := by
        rw [List.toFinset_card_of_nodup hplaces, List.length_map]
    _ ≤ _ := Finset.card_le_card hsubset

/-- Computations that come to a value on `s` and write down the paths that they read. -/
def tracing (s : Machine) : Tracing (StateT (List String) Run) where
  Rel x a reads := ∀ err, ∃ err', Writes x { s with err } reads a { s with err := err' }
  value a err := ⟨err, writes_pure a _⟩
  sequence {α β x a f b reads more} hx hf err := by
    obtain ⟨err₁, hx⟩ := hx err
    obtain ⟨err₂, hf⟩ := hf err₁
    exact ⟨err₂, hx.bind hf⟩

theorem tracing_lift {s : Machine} {α : Type} {x : Run α} {a : α} (h : s.settled.Rel x a) :
    s.tracing.Rel (StateT.lift x) a [] := by
  intro err
  obtain ⟨err', hrun⟩ := h err
  exact ⟨err', writes_lift hrun⟩

theorem tracing_written {s : Machine} {α : Type} {x : Run α} {a : α} (h : s.settled.Rel x a)
    (told : α → List String) : s.tracing.Rel (written told x) a (told a) := by
  intro err
  obtain ⟨err', hrun⟩ := h err
  exact ⟨err', writes_written hrun told⟩

theorem recording_traced {s : Machine} (hs : s.Steady) (cwd : Names) :
    (host cwd).recording.Traced s.tracing (s.view cwd) where
  quiet :=
    { cwd := rfl
      log := fun record => tracing_lift (s.settled_log record)
      realpath := fun path => tracing_lift (settled_reading hs cwd _ path _)
      isFile := fun path => tracing_lift (settled_reading hs cwd _ path _)
      assertReadable := fun path => tracing_lift (settled_reading hs cwd _ path _)
      read := fun _ h => h.elim }
  read path := tracing_written ((host_corresponds hs cwd fun _ => True).read path trivial) _

theorem recorded_of_ends {s : Machine} {cwd : Names} {o : Options} {input : String}
    {out : Except Thrown String} {reads : List String}
    (h : s.tracing.Ends (Preprocessor.process (host cwd).recording o input) out reads) :
    s.recorded cwd o input = (out, reads) := by
  obtain ⟨err, hrun⟩ := h s.err
  exact congrArg Prod.fst (hrun [])

end Machine

theorem Thrown.IsAccess.not_isTooDeep {e : Thrown} (h : e.IsAccess) : ¬e.IsTooDeep := by
  rintro ⟨f, path, limit, location, rfl, hf⟩
  simp [IsAccess, hf] at h

theorem Ledger.Kept.full_of_isTooDeep {l : Ledger} (hl : l.Kept) {path : String}
    {location : Option Location} {e : Thrown} (h : l.enter path location = .error e)
    (he : e.IsTooDeep) : path ∉ l.opened ∧ l.depth = l.capacity := by
  obtain ⟨f, path', limit, location', rfl, hf⟩ := he
  by_cases hmem : path ∈ l.opened
  · rw [hl.enter_of_mem hmem] at h
    cases h
    cases hf
  · have hdepth := hl.depth_le
    rw [hl.enter_of_not_mem hmem] at h
    split at h
    · cases h
    · exact ⟨hmem, by omega⟩

namespace IncludeGraph

variable {v : Host Id} {r : Resolver}

theorem isTarget_of_mem_chain {path target : String} {below : List String}
    (hchain : (path :: below).IsChain (Includes v r)) (h : target ∈ below) :
    r.IsTarget v target := by
  induction below generalizing path with
  | nil => cases h
  | cons first below ih =>
    obtain ⟨⟨d, -, hd⟩, htail⟩ := List.isChain_cons_cons.mp hchain
    rcases List.mem_cons.mp h with rfl | h
    · exact ⟨d, hd⟩
    · exact ih htail h

theorem Breaks.tooDeep (hv : v.RaisesForeign) {debug : Bool} {l : Ledger} (hl : l.Kept)
    {path : String} {e : Thrown} (h : Breaks v r debug l path e) (he : e.IsTooDeep) :
    l.depth = l.capacity ∧ ∃ target ∉ l.opened, r.IsTarget v target := by
  rcases h.kind hv with haccess | ⟨text, location, rfl⟩ | ⟨target, location, ⟨d, -, hd⟩, henter⟩
  · exact absurd he haccess.not_isTooDeep
  · obtain ⟨f, path, limit, location', hf, hproblem⟩ := he
    cases hf
    cases hproblem
  · obtain ⟨hnew, hfull⟩ := hl.full_of_isTooDeep henter he
    exact ⟨hfull, target, hnew, d, hd⟩

end IncludeGraph

namespace Preprocessor

open IncludeGraph Expansion

theorem EndsEarly.not_isTooDeep {v : Host Id} (hv : v.RaisesForeign) {o : Options} {input : String}
    {e : Thrown} (h : EndsEarly v o input e) : ¬e.IsTooDeep := by
  rcases h with hc | ⟨c, -, hfile | ⟨file, -, hr⟩⟩
  · rintro ⟨f, path, limit, location, rfl, hf⟩
    rcases Config.forInput_eq_error hc with ⟨complaint, he⟩ | he
    · cases he
      cases hf
    · exact he
  · exact (hv.canonicalOf hfile).not_isTooDeep
  · exact (resolverOf_access hv hr).not_isTooDeep

section steady

variable {s : Machine} (hs : s.Steady) {cwd : Names} {c : Config} {file : String} {r : Resolver}
  (hpos : c.maxIncludeDepth.isPositiveInteger = true)
  (hr : resolverOf (s.view cwd) c = .ok r)
include hs hr

theorem length_le_of_inside {visit : Visit}
    (h : visit.Inside (s.view cwd) r (opening c file)) :
    visit.stack.length ≤ min c.maxIncludeDepth.floorNat
      (1 + (s.tree.filesBelow (Path.resolve [] r.root)).card) := by
  refine le_min h.length_le ?_
  obtain ⟨inner, hstack, hkept, htargets⟩ := h
  have hinner := Machine.length_le_card hs hr
    (List.nodup_cons.mp (nodup_of_kept_opening hkept)).2 htargets
  rw [hstack, Ledger.pushAll_stack, opening_stack, List.singleton_append, List.length_cons]
  omega

include hpos

/-- A limit above the number of files below the root is never met. -/
theorem not_isTooDeep_of_expansion
    (hcard : (s.tree.filesBelow (Path.resolve [] r.root)).card < c.maxIncludeDepth.floorNat)
    {e : Thrown}
    (h : (expandWithin (s.view cwd) r c.marks (c.maxIncludeDepth.floorNat + 1) file).result
      (opening c file) = .error e) : ¬e.IsTooDeep := by
  intro he
  obtain ⟨below, last, cause, hdescends, hkept, hbreaks, rfl⟩ := exists_breaks_of_expansion hpos h
  rw [Thrown.isTooDeep_attach] at he
  obtain ⟨hfull, target, hnew, htarget⟩ := hbreaks.tooDeep (Machine.raisesForeign hs cwd) hkept he
  rw [Ledger.pushAll_capacity, opening_capacity, ← Ledger.length_stack, Ledger.pushAll_stack,
    opening_stack, List.singleton_append, List.length_cons] at hfull
  have hnodup : (target :: below).Nodup := by
    refine List.nodup_cons.mpr ⟨fun hmem => hnew (by simp [hmem]), ?_⟩
    exact (List.nodup_cons.mp (nodup_of_kept_opening hkept)).2
  have hlength := Machine.length_le_card hs hr hnodup <| List.forall_mem_cons.mpr
    ⟨htarget, fun g hg => isTarget_of_mem_chain hdescends.isChain hg⟩
  rw [List.length_cons] at hlength
  omega

end steady

end Preprocessor
end Inliner
