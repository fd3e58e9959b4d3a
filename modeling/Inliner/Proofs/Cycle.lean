import Inliner.Proofs.Breakdown
import Inliner.Proofs.IncludeTree

/-! On sound files that are no more than the limit, a run is refused exactly for a cycle of the
include graph. The chain that is told with a circular include is always a walk of it. -/
namespace Inliner

/-- The failure of a file that is included while it is open, at the end of `chain`. -/
def Thrown.IsCircular (e : Thrown) (chain : List String) : Prop :=
  ∃ f location, e = .failure f ∧ f.problem = .circular chain location

theorem Thrown.isCircular_attach {e : Thrown} {stack chain : List String} :
    (e.attach stack).IsCircular chain ↔ e.IsCircular chain := by
  cases e with
  | failure f => simp [attach, IsCircular]
  | error e => simp [attach, IsCircular]
  | value v => simp [attach, IsCircular]

theorem Thrown.IsAccess.not_isCircular {e : Thrown} (h : e.IsAccess) (chain : List String) :
    ¬e.IsCircular chain := by
  rintro ⟨f, location, rfl, hf⟩
  simp [IsAccess, hf] at h

namespace IncludeGraph

open Relation

variable (v : Host Id) (r : Resolver)

/-- No file that can be come to includes itself, however indirectly. -/
def Acyclic (path : String) : Prop :=
  ∀ file ∈ Reachable v r path, ¬TransGen (Includes v r) file file

variable {v r}

theorem mem_reachable_of_mem_chain {path file : String} {below : List String}
    (hchain : (path :: below).IsChain (Includes v r)) (hfile : file ∈ path :: below) :
    file ∈ Reachable v r path := by
  refine hchain.induction (· ∈ Reachable v r path) (path :: below) ?_ ?_ file hfile
  · intro a b hab ha
    exact ReflTransGen.tail ha hab
  · intro _
    exact .refl

theorem Acyclic.nodup {path : String} (h : Acyclic v r path) {below : List String}
    (hchain : (path :: below).IsChain (Includes v r)) : (path :: below).Nodup := by
  have htrans : (path :: below).IsChain (TransGen (Includes v r)) :=
    hchain.imp fun _ _ hab => .single hab
  have hpairs := List.isChain_iff_pairwise.mp htrans
  refine hpairs.imp_of_mem fun {a b} ha _ hab heq => ?_
  subst heq
  exact h a (mem_reachable_of_mem_chain hchain ha) hab

theorem acyclic_of_nodup {path : String}
    (h : ∀ below, (path :: below).IsChain (Includes v r) → (path :: below).Nodup) :
    Acyclic v r path := by
  intro file hfile hloop
  obtain ⟨first, hfirst, hback⟩ := TransGen.head'_iff.mp hloop
  obtain ⟨down, hdown, hend⟩ := List.exists_isChain_cons_of_relationReflTransGen hfile
  obtain ⟨round, hround, hreturn⟩ := List.exists_isChain_cons_of_relationReflTransGen hback
  have hlink : ∀ a ∈ (path :: down).getLast?, ∀ b ∈ (first :: round).head?,
      Includes v r a b := by
    intro a ha b hb
    rw [List.getLast?_eq_some_getLast (List.cons_ne_nil path down), hend] at ha
    cases ha
    cases hb
    exact hfirst
  have hnodup := h (down ++ first :: round) (hdown.append hround hlink)
  rw [← List.cons_append] at hnodup
  refine List.disjoint_of_nodup_append hnodup ?_ ?_ (a := file)
  · rw [← hend]
    exact List.getLast_mem _
  · rw [← hreturn]
    exact List.getLast_mem _

theorem length_le_of_encard_le {path : String} {limit : Nat} {files : List String}
    (hcard : (Reachable v r path).encard ≤ limit) (hnodup : files.Nodup)
    (hfiles : ∀ file ∈ files, file ∈ Reachable v r path) : files.length ≤ limit := by
  have hsubset : (files.toFinset : Set String) ⊆ Reachable v r path := by
    intro file hfile
    exact hfiles file (by simpa using hfile)
  have hle := (Set.encard_le_encard hsubset).trans hcard
  rw [Set.encard_coe_eq_coe_finsetCard, List.toFinset_card_of_nodup hnodup] at hle
  exact_mod_cast hle

theorem sound_of_single {path text line target : String} {d : Directive}
    (htext : v.textOf path = .ok text) (hlines : Text.splitLines text = [line])
    (hparse : Directive.parseLine line (.count 1) path = .ok (some d))
    (ht : r.targetOf v d = .ok target) :
    Sound v r path ∧ ∀ g, Includes v r path g ↔ g = target := by
  have hline {i : Nat} {other : String} (h : LineOf v path i other) : i = 0 ∧ other = line := by
    have hi := h.of_text htext
    rw [hlines] at hi
    cases i with
    | zero => exact ⟨rfl, by simpa [eq_comm] using hi⟩
    | succ i => simp at hi
  refine ⟨⟨⟨text, htext⟩, fun i other h => ?_⟩, fun g => ⟨?_, ?_⟩⟩
  · obtain ⟨rfl, rfl⟩ := hline h
    exact .inr ⟨d, target, hparse, ht⟩
  · rintro ⟨d', ⟨i, other, h, hp⟩, hg⟩
    obtain ⟨rfl, rfl⟩ := hline h
    rw [hparse] at hp
    cases hp
    rw [ht] at hg
    cases hg
    rfl
  · rintro rfl
    exact ⟨d, ⟨0, line, ⟨text, htext, by rw [hlines]; rfl⟩, hparse⟩, ht⟩

theorem Breaks.refused_of_sound {debug : Bool} {l : Ledger} {path : String} {e : Thrown}
    (h : Breaks v r debug l path e) (hsound : Sound v r path) :
    ∃ target location, Includes v r path target ∧ l.enter target location = .error e := by
  cases h with
  | unreadable hread =>
    obtain ⟨text, htext⟩ := hsound.readable
    rw [htext] at hread
    cases hread
  | line _ hstumbles =>
    cases hstumbles with
    | malformed hline hparse =>
      rcases hsound.lines _ _ hline with hp | ⟨d, target, hp, -⟩
      · rw [hp] at hparse
        cases hparse
      · rw [hp] at hparse
        cases hparse
    | @unresolved d hdirective hresolve =>
      obtain ⟨line, hline, hd⟩ := hdirective
      rcases hsound.lines _ line hline with hp | ⟨d', target, hp, htarget⟩
      · rw [hp] at hd
        cases hd
      · rw [hp] at hd
        cases hd
        rw [htarget] at hresolve
        cases hresolve
    | @refused d target hdirective hresolve henter =>
      exact ⟨target, some d.location, ⟨d, hdirective.directiveOf, hresolve⟩, henter⟩

theorem Breaks.circular (hv : v.RaisesForeign) {debug : Bool} {l : Ledger} (hl : l.Kept)
    {path : String} {e : Thrown} {chain : List String} (h : Breaks v r debug l path e)
    (hcircular : e.IsCircular chain) :
    ∃ target ∈ l.opened, Includes v r path target ∧ chain = l.stack ++ [target] := by
  rcases h.kind hv with haccess | ⟨text, location, rfl⟩ | ⟨target, location, ht, henter⟩
  · exact absurd hcircular (haccess.not_isCircular chain)
  · obtain ⟨f, location', hf, hproblem⟩ := hcircular
    cases hf
    cases hproblem
  · obtain ⟨f, location', rfl, hf⟩ := hcircular
    by_cases hmem : target ∈ l.opened
    · rw [hl.enter_of_mem hmem] at henter
      cases henter
      cases hf
      exact ⟨target, hmem, ht, rfl⟩
    · rw [hl.enter_of_not_mem hmem] at henter
      split at henter
      · cases henter
      · cases henter
        cases hf

end IncludeGraph

theorem Config.not_isCircular_of_forInput {cwd : Names} {o : Options} {input : String}
    {e : Thrown} (h : Config.forInput cwd o input = .error e) (chain : List String) :
    ¬e.IsCircular chain := by
  rintro ⟨f, location, rfl, hf⟩
  rcases Config.forInput_eq_error h with ⟨complaint, he⟩ | he
  · cases he
    cases hf
  · exact he

namespace Preprocessor

open IncludeGraph

variable {v : Host Id} {o : Options} {input : String} {c : Config} {file : String} {r : Resolver}

theorem refused_of_expansion (hpos : c.maxIncludeDepth.isPositiveInteger = true)
    (hsound : ∀ g ∈ Reachable v r file, Sound v r g) {e : Thrown}
    (h : (Expansion.expandWithin v r c.marks (c.maxIncludeDepth.floorNat + 1) file).result
      (opening c file) = .error e) :
    ∃ below target location cause, (file :: (below ++ [target])).IsChain (Includes v r) ∧
      ((opening c file).pushAll below).Kept ∧
      ((opening c file).pushAll below).enter target location = .error cause ∧
      e = cause.attach (file :: below) := by
  obtain ⟨below, last, cause, hdescends, hkept, hbreaks, he⟩ := exists_breaks_of_expansion hpos h
  have hreach : last ∈ Reachable v r file :=
    mem_reachable_of_mem_chain hdescends.isChain (List.mem_of_getLast? hdescends.getLast?)
  obtain ⟨target, location, ht, henter⟩ := hbreaks.refused_of_sound (hsound last hreach)
  refine ⟨below, target, location, cause, ?_, hkept, henter, he⟩
  rw [← List.cons_append]
  refine hdescends.isChain.append (.singleton target) fun a ha b hb => ?_
  rw [hdescends.getLast?] at ha
  cases ha
  cases hb
  exact ht

/-- On sound files that are no more than the limit, the one way to fail is a cycle. -/
theorem isCircular_of_expansion (hpos : c.maxIncludeDepth.isPositiveInteger = true)
    (hsound : ∀ g ∈ Reachable v r file, Sound v r g)
    (hcard : (Reachable v r file).encard ≤ c.maxIncludeDepth.floorNat) {e : Thrown}
    (h : (Expansion.expandWithin v r c.marks (c.maxIncludeDepth.floorNat + 1) file).result
      (opening c file) = .error e) : ∃ chain, e.IsCircular chain := by
  obtain ⟨below, target, location, cause, hchain, hkept, henter, rfl⟩ :=
    refused_of_expansion hpos hsound h
  simp only [Thrown.isCircular_attach]
  by_cases hmem : target ∈ ((opening c file).pushAll below).opened
  · rw [hkept.enter_of_mem hmem] at henter
    cases henter
    exact ⟨_, _, _, rfl, rfl⟩
  · have hnodup := nodup_of_kept_opening hkept
    have hnew : target ∉ file :: below := by simpa [or_comm] using hmem
    have hlength : (target :: file :: below).length ≤ c.maxIncludeDepth.floorNat := by
      refine length_le_of_encard_le hcard (List.nodup_cons.mpr ⟨hnew, hnodup⟩) fun g hg => ?_
      refine mem_reachable_of_mem_chain hchain ?_
      simp only [List.mem_cons, List.mem_append, List.not_mem_nil] at hg ⊢
      tauto
    rw [hkept.enter_of_not_mem hmem, if_pos] at henter
    · cases henter
    · simpa [Ledger.depth] using hlength

/-- The chain of a circular include starts at the input, goes along directives and ends with a
file that it has already. -/
theorem chain_of_expansion (hv : v.RaisesForeign)
    (hpos : c.maxIncludeDepth.isPositiveInteger = true) {e : Thrown} {chain : List String}
    (h : (Expansion.expandWithin v r c.marks (c.maxIncludeDepth.floorNat + 1) file).result
      (opening c file) = .error e) (hcircular : e.IsCircular chain) :
    chain.head? = some file ∧ chain.IsChain (Includes v r) ∧
      ∃ before last, chain = before ++ [last] ∧ last ∈ before := by
  obtain ⟨below, last, cause, hdescends, hkept, hbreaks, rfl⟩ := exists_breaks_of_expansion hpos h
  rw [Thrown.isCircular_attach] at hcircular
  obtain ⟨target, hmem, ht, rfl⟩ := hbreaks.circular hv hkept hcircular
  have hstack : ((opening c file).pushAll below).stack = file :: below := by
    rw [Ledger.pushAll_stack]
    rfl
  rw [hstack]
  refine ⟨rfl, hdescends.isChain.append (.singleton target) ?_, file :: below, target, rfl, ?_⟩
  · intro a ha b hb
    rw [hdescends.getLast?] at ha
    cases ha
    cases hb
    exact ht
  · simpa [or_comm] using hmem

theorem outcomeOf_eq_ok_iff_acyclic (hc : Config.forInput v.cwd o input = .ok c)
    (hfile : fileOf v input = .ok file) (hr : resolverOf v c = .ok r)
    (hsound : ∀ g ∈ Reachable v r file, Sound v r g)
    (hcard : (Reachable v r file).encard ≤ c.maxIncludeDepth.floorNat) :
    (∃ text, outcomeOf v o input = .ok text) ↔ Acyclic v r file := by
  rw [outcomeOf_eq_ok_iff hc hfile hr]
  constructor
  · intro h
    exact acyclic_of_nodup h.simple
  · intro h
    refine ⟨hsound, fun below hchain => h.nodup hchain, fun below hchain => ?_⟩
    exact length_le_of_encard_le hcard (h.nodup hchain) fun g hg =>
      mem_reachable_of_mem_chain hchain hg

/-- Cycles are found exactly. On sound files that are no more than the limit, a run succeeds if the
include graph has no cycle that can be come to, and otherwise fails with a circular include;
and whenever a run fails with one, its chain is a walk of the graph that comes back to itself. -/
theorem process_detects_cycles {s : Machine} (hs : s.Steady) (cwd : Names) (o : Options)
    (input : String) :
    (∀ c file r, Config.forInput cwd o input = .ok c → fileOf (s.view cwd) input = .ok file →
      resolverOf (s.view cwd) c = .ok r →
      (∀ g ∈ Reachable (s.view cwd) r file, Sound (s.view cwd) r g) →
      (Reachable (s.view cwd) r file).encard ≤ c.maxIncludeDepth.floorNat →
      ((∃ text, s.outcome cwd o input = .ok text) ↔ Acyclic (s.view cwd) r file) ∧
      (¬Acyclic (s.view cwd) r file →
        ∃ e chain, s.outcome cwd o input = .error e ∧ e.IsCircular chain)) ∧
    ∀ e chain, s.outcome cwd o input = .error e → e.IsCircular chain →
      ∃ c file r, Config.forInput cwd o input = .ok c ∧ fileOf (s.view cwd) input = .ok file ∧
        resolverOf (s.view cwd) c = .ok r ∧ chain.head? = some file ∧
        chain.IsChain (Includes (s.view cwd) r) ∧
        ∃ before last, chain = before ++ [last] ∧ last ∈ before := by
  rw [Machine.outcome_eq hs]
  constructor
  · intro c file r hc hfile hr hsound hcard
    have hpos := Config.isPositiveInteger_of_forInput hc
    have hiff := outcomeOf_eq_ok_iff_acyclic (v := s.view cwd) hc hfile hr hsound hcard
    refine ⟨hiff, fun hcyclic => ?_⟩
    cases h : outcomeOf (s.view cwd) o input with
    | ok text => exact absurd (hiff.mp ⟨text, h⟩) hcyclic
    | error e =>
      rw [outcomeOf_eq (s.view cwd) o input hc hfile hr, map_eq_error_iff] at h
      obtain ⟨chain, hchain⟩ := isCircular_of_expansion hpos hsound hcard h
      exact ⟨e, chain, rfl, hchain⟩
  · intro e chain h hcircular
    have hv := Machine.raisesForeign hs cwd
    rcases outcomeOf_eq_error h with hc | hfile | ⟨c, hc, hr | ⟨file, r, hfile, hr, h⟩⟩
    · exact absurd hcircular (Config.not_isCircular_of_forInput hc chain)
    · exact absurd hcircular ((hv.canonicalOf hfile).not_isCircular chain)
    · exact absurd hcircular ((resolverOf_access hv hr).not_isCircular chain)
    · have hpos := Config.isPositiveInteger_of_forInput hc
      exact ⟨c, file, r, hc, hfile, hr, chain_of_expansion hv hpos h hcircular⟩

def looping : Machine :=
  { tree := ⟨[(["w"], .directory), (["w", "a"], .file (Text.encodeUtf8 "#include a"))]⟩ }

theorem looping_process_detects_cycles :
    let o : Options := { maxIncludeDepth := .number (.count 1) }
    let v := looping.view ["w"]
    (∀ g ∈ Reachable v ⟨"/w"⟩ "/w/a", Sound v ⟨"/w"⟩ g) ∧
    (Reachable v ⟨"/w"⟩ "/w/a").encard ≤ 1 ∧ ¬Acyclic v ⟨"/w"⟩ "/w/a" ∧
    ∃ e chain, looping.outcome ["w"] o "a" = .error e ∧ e.IsCircular chain ∧
      chain.head? = some "/w/a" ∧ ∃ before last, chain = before ++ [last] ∧ last ∈ before := by
  intro o v
  have hs : looping.Steady := Machine.steady_of_faults_eq_nil rfl
  have htext : v.textOf "/w/a" = .ok "#include a" := by cbv
  have htarget : Resolver.targetOf ⟨"/w"⟩ v ⟨.count 1, "a", .bare, "/w/a"⟩ = .ok "/w/a" := by
    rw [Resolver.targetOf_eq_ok_iff, Machine.answersIn_realpath hs, Machine.answersIn_isFile hs,
      Machine.answersIn_assertReadable hs]
    refine ⟨?_, ?_, ?_, ?_, ?_⟩ <;> cbv
  obtain ⟨hsounda, hincludes⟩ := sound_of_single htext (by cbv) (by cbv) htarget
  have hreach : ∀ g ∈ Reachable v ⟨"/w"⟩ "/w/a", g = "/w/a" := by
    intro g hg
    induction hg with
    | refl => rfl
    | tail _ hstep ih =>
      subst ih
      exact (hincludes _).mp hstep
  have hsound : ∀ g ∈ Reachable v ⟨"/w"⟩ "/w/a", Sound v ⟨"/w"⟩ g := by
    intro g hg
    rw [hreach g hg]
    exact hsounda
  have hcard : (Reachable v ⟨"/w"⟩ "/w/a").encard ≤ 1 := by
    rw [Set.encard_le_one_iff]
    intro g h hg hh
    rw [hreach g hg, hreach h hh]
  have hcyclic : ¬Acyclic v ⟨"/w"⟩ "/w/a" := fun h =>
    h "/w/a" .refl (.single ((hincludes _).mpr rfl))
  have hc : Config.forInput ["w"] o "a" = .ok ⟨.bool false, .count 1, ["w"]⟩ := by cbv
  have hfile : fileOf v "a" = .ok "/w/a" := by cbv
  have hr : resolverOf v ⟨.bool false, .count 1, ["w"]⟩ = .ok ⟨"/w"⟩ := by cbv
  obtain ⟨hexact, hchain⟩ := process_detects_cycles hs ["w"] o "a"
  obtain ⟨-, hfails⟩ := hexact _ _ _ hc hfile hr hsound hcard
  obtain ⟨e, chain, he, hcircular⟩ := hfails hcyclic
  obtain ⟨c', file', r', -, hfile', -, hhead, -, hlast⟩ := hchain e chain he hcircular
  rw [hfile] at hfile'
  cases hfile'
  exact ⟨hsound, hcard, hcyclic, e, chain, he, hcircular, hhead, hlast⟩

end Preprocessor
end Inliner
