import Inliner.Proofs.Cycle

/-! Where a failed run says that it failed. A failure has the place of the directive that raised it,
and the files that were open when it arose are recorded once. -/
namespace Inliner

/-- A line whose trimmed text is the keyword, alone or followed by a blank. -/
def Directive.IsIncludeLine (line : String) : Prop :=
  ∃ rest, Text.trimChars line.toList = keyword.toList ++ rest ∧ ∀ c ∈ rest.head?, Text.isBlank c

theorem Directive.isIncludeLine_of_readLine {line : String} (h : readLine line ≠ .plain) :
    IsIncludeLine line := by
  unfold readLine readTrimmed at h
  split at h
  · rename_i hkeyword
    obtain ⟨rest, hrest⟩ := List.isPrefixOf_iff_prefix.mp hkeyword
    refine ⟨rest, hrest.symm, ?_⟩
    rw [← hrest, List.drop_left] at h
    intro c hc
    by_contra hblank
    have hrefused : ¬(rest.head?.map Text.isBlank).getD true = true := by
      rw [Option.mem_def.mp hc]
      exact hblank
    exact h (if_neg hrefused)
  · exact absurd rfl h

theorem Directive.parseLine_eq_some {line : String} {number : Number} {file : String}
    {d : Directive} (h : parseLine line number file = .ok (some d)) :
    d.location = ⟨file, number⟩ ∧ IsIncludeLine line := by
  unfold parseLine at h
  split at h
  · cases h
  · rename_i hread
    cases h
    exact ⟨rfl, isIncludeLine_of_readLine (by simp [hread])⟩
  · cases h

namespace Thrown

/-- A failure with the given place, on which no open files are recorded yet. -/
def IsRaisedAt (e : Thrown) (location : Option Location) : Prop :=
  ∃ f, e = .failure f ∧ f.includeStack = none ∧ f.problem.location? = location

theorem isRaisedAt_ofProblem (p : Problem) : (ofProblem p).IsRaisedAt p.location? :=
  ⟨_, rfl, rfl, rfl⟩

theorem isRaisedAt_onPath {e : Thrown} (h : e.IsForeign) (path : String)
    (location : Option Location) :
    (Thrown.failure (e.onPath path location)).IsRaisedAt location := by
  cases e with
  | failure f => exact h.elim
  | error e =>
    refine ⟨_, rfl, rfl, ?_⟩
    show (Problem.ofCode e.code path location).location? = location
    unfold Problem.ofCode
    split <;> rfl
  | value v => cases v <;> exact ⟨_, rfl, rfl, rfl⟩

theorem IsRaisedAt.attach {e : Thrown} {location : Option Location} (h : e.IsRaisedAt location)
    (stack : List String) :
    ∃ f, e.attach stack = .failure f ∧ f.includeStack = some stack ∧
      f.problem.location? = location ∧ e = .failure { f with includeStack := none } := by
  obtain ⟨f, rfl, hstack, hlocation⟩ := h
  refine ⟨{ f with includeStack := some stack }, ?_, rfl, hlocation, ?_⟩
  · simp [Thrown.attach, Failure.attach, hstack]
  · rw [← hstack]

end Thrown

theorem Host.RaisesForeign.textOf_isRaisedAt {v : Host Id} (hv : v.RaisesForeign) {path : String}
    {e : Thrown} (h : v.textOf path = .error e) : e.IsRaisedAt none := by
  rw [Host.textOf, Host.readSource, run_onPath] at h
  obtain ⟨t, ht, rfl⟩ := mapError_eq_error_iff.mp h
  exact Thrown.isRaisedAt_onPath (hv.read ht) path none

theorem Resolver.targetOf_isRaisedAt {r : Resolver} {v : Host Id} {d : Directive}
    (hv : v.RaisesForeign) {e : Thrown} (h : r.targetOf v d = .error e) :
    e.IsRaisedAt (some d.location) := by
  rcases targetOf_eq_error hv h with ⟨path, rfl⟩ | ⟨t, path, ht, rfl⟩
  · exact Thrown.isRaisedAt_ofProblem _
  · exact Thrown.isRaisedAt_onPath ht path _

theorem Ledger.enter_isRaisedAt {l : Ledger} {path : String} {location : Option Location}
    {e : Thrown} (h : l.enter path location = .error e) : e.IsRaisedAt location := by
  unfold enter at h
  split at h
  · cases h
    exact Thrown.isRaisedAt_ofProblem _
  · split at h
    · cases h
      exact Thrown.isRaisedAt_ofProblem _
    · cases h

namespace IncludeGraph

variable {v : Host Id} {r : Resolver} {l : Ledger} {path : String} {i : Nat}

theorem DirectiveAt.place {d : Directive} (h : DirectiveAt v path i d) :
    d.location = ⟨path, .count (i + 1)⟩ ∧
      ∃ line, LineOf v path i line ∧ Directive.IsIncludeLine line := by
  obtain ⟨line, hline, hparse⟩ := h
  obtain ⟨hlocation, hinclude⟩ := Directive.parseLine_eq_some hparse
  exact ⟨hlocation, line, hline, hinclude⟩

/-- Whatever goes wrong on a line is told with the number of the line, which is an include line. -/
theorem Stumbles.place (hv : v.RaisesForeign) {e : Thrown} (h : Stumbles v r l path i e) :
    e.IsRaisedAt (some ⟨path, .count (i + 1)⟩) ∧
      ∃ line, LineOf v path i line ∧ Directive.IsIncludeLine line := by
  cases h with
  | @malformed line hline hparse =>
    unfold Directive.parseLine at hparse
    split at hparse
    · cases hparse
    · cases hparse
    · rename_i text hread
      cases hparse
      refine ⟨Thrown.isRaisedAt_ofProblem _, line, hline, ?_⟩
      exact Directive.isIncludeLine_of_readLine (by simp [hread])
  | @unresolved d hdirective hresolve =>
    obtain ⟨hlocation, hline⟩ := hdirective.place
    rw [← hlocation]
    exact ⟨Resolver.targetOf_isRaisedAt hv hresolve, hline⟩
  | @refused d target hdirective hresolve henter =>
    obtain ⟨hlocation, hline⟩ := hdirective.place
    rw [← hlocation]
    exact ⟨Ledger.enter_isRaisedAt henter, hline⟩

theorem Breaks.place (hv : v.RaisesForeign) {debug : Bool} {e : Thrown}
    (h : Breaks v r debug l path e) :
    (e.IsRaisedAt none ∧ v.textOf path = .error e) ∨
    ∃ i line, e.IsRaisedAt (some ⟨path, .count (i + 1)⟩) ∧
      (∀ j < i, Passes v r debug l path j) ∧ Stumbles v r l path i e ∧
      LineOf v path i line ∧ Directive.IsIncludeLine line := by
  cases h with
  | unreadable hread => exact .inl ⟨hv.textOf_isRaisedAt hread, hread⟩
  | @line i hearlier hstumbles =>
    obtain ⟨hraised, line, hline, hinclude⟩ := hstumbles.place hv
    exact .inr ⟨i, line, hraised, hearlier, hstumbles, hline, hinclude⟩

end IncludeGraph

namespace Preprocessor

open IncludeGraph Expansion

/-- A run that fails in its expansion tells where. The files told are different ones, from the input
to the file `last` along directives; all that comes before this way in line order was dealt with,
and the failure is the first of `last` itself: the file cannot be read, or its line with the number
told, which is an include line, asks for nothing that can be opened. A circular include is told with
these files and the one among them that comes again. -/
theorem process_localises_failure {s : Machine} (hs : s.Steady) {cwd : Names} {o : Options}
    {input : String} {c : Config} {file : String} {r : Resolver}
    (hc : Config.forInput cwd o input = .ok c) (hfile : fileOf (s.view cwd) input = .ok file)
    (hr : resolverOf (s.view cwd) c = .ok r) {e : Thrown}
    (h : s.outcome cwd o input = .error e) :
    ∃ f below last, e = .failure f ∧ f.includeStack = some (file :: below) ∧
      (file :: below).Nodup ∧ (file :: below).IsChain (Includes (s.view cwd) r) ∧
      (file :: below).getLast? = some last ∧
      Descends (s.view cwd) r c.marks (opening c file) file below last ∧
      ((f.problem.location? = none ∧
          (s.view cwd).textOf last = .error (.failure { f with includeStack := none })) ∨
        ∃ i line, f.problem.location? = some ⟨last, .count (i + 1)⟩ ∧
          (∀ j < i, Passes (s.view cwd) r c.marks ((opening c file).pushAll below) last j) ∧
          Stumbles (s.view cwd) r ((opening c file).pushAll below) last i
            (.failure { f with includeStack := none }) ∧
          LineOf (s.view cwd) last i line ∧ Directive.IsIncludeLine line) ∧
      ∀ chain location, f.problem = .circular chain location →
        ∃ target ∈ file :: below, chain = file :: below ++ [target] := by
  have hv := Machine.raisesForeign hs cwd
  rw [Machine.outcome_eq hs, outcomeOf_eq (s.view cwd) o input hc hfile hr,
    map_eq_error_iff] at h
  obtain ⟨below, last, cause, hdescends, hkept, hbreaks, rfl⟩ :=
    exists_breaks_of_expansion (Config.isPositiveInteger_of_forInput hc) h
  have hcircular (f : Failure) (hf : cause = .failure { f with includeStack := none })
      (chain : List String) (location : Option Location)
      (hproblem : f.problem = .circular chain location) :
      ∃ target ∈ file :: below, chain = file :: below ++ [target] := by
    obtain ⟨target, hmem, -, hchain⟩ := hbreaks.circular hv hkept ⟨_, location, hf, hproblem⟩
    refine ⟨target, by simpa [or_comm] using hmem, ?_⟩
    rwa [Ledger.pushAll_stack, opening_stack] at hchain
  have hnodup := nodup_of_kept_opening hkept
  rcases hbreaks.place hv with
    ⟨hraised, hread⟩ | ⟨i, line, hraised, hearlier, hstumbles, hline, hinclude⟩
  · obtain ⟨f, hattach, hstack, hlocation, hcause⟩ := hraised.attach (file :: below)
    refine ⟨f, below, last, hattach, hstack, hnodup, hdescends.isChain, hdescends.getLast?,
      hdescends, .inl ⟨hlocation, ?_⟩, hcircular f hcause⟩
    rw [hread, hcause]
  · obtain ⟨f, hattach, hstack, hlocation, hcause⟩ := hraised.attach (file :: below)
    refine ⟨f, below, last, hattach, hstack, hnodup, hdescends.isChain, hdescends.getLast?,
      hdescends, .inr ⟨i, line, hlocation, hearlier, ?_, hline, hinclude⟩, hcircular f hcause⟩
    rw [← hcause]
    exact hstumbles

/-- A file that includes its neighbour, whose second line is an include without a path. -/
def stumbling : Machine :=
  { tree := ⟨[(["w"], .directory), (["w", "a"], .file (Text.encodeUtf8 "#include b")),
      (["w", "b"], .file (Text.encodeUtf8 "x\n#include <"))]⟩ }

theorem stumbling_process_localises_failure :
    let o : Options := { maxIncludeDepth := .number (.count 2) }
    let c : Config := ⟨.bool false, .count 2, ["w"]⟩
    let v := stumbling.view ["w"]
    let l := (opening c "/w/a").pushAll ["/w/b"]
    let f : Failure :=
      { problem := .invalidDirective "#include <" ⟨"/w/b", .count 2⟩
        includeStack := some ["/w/a", "/w/b"] }
    stumbling.outcome ["w"] o "a" = .error (.failure f) ∧
    ["/w/a", "/w/b"].IsChain (Includes v ⟨"/w"⟩) ∧
    Descends v ⟨"/w"⟩ false (opening c "/w/a") "/w/a" ["/w/b"] "/w/b" ∧
    ∃ i line, (⟨"/w/b", .count 2⟩ : Location) = ⟨"/w/b", .count (i + 1)⟩ ∧
      (∀ j < i, Passes v ⟨"/w"⟩ false l "/w/b" j) ∧ LineOf v "/w/b" i line ∧
      Directive.IsIncludeLine line := by
  have hfile : fileOf (stumbling.view ["w"]) "a" = .ok "/w/a" := by rfl
  have hr : resolverOf (stumbling.view ["w"]) ⟨.bool false, .count 2, ["w"]⟩ = .ok ⟨"/w"⟩ := by
    rfl
  have htarget : Resolver.targetOf ⟨"/w"⟩ (stumbling.view ["w"])
      ⟨.count 1, "b", .bare, "/w/a"⟩ = .ok "/w/b" := by rfl
  intro o c v l f
  have hs : stumbling.Steady := Machine.steady_of_faults_eq_nil rfl
  have hc : Config.forInput ["w"] o "a" = .ok c := by rfl
  have houter : v.textOf "/w/a" = .ok "#include b" := by rfl
  have hinner : v.textOf "/w/b" = .ok "x\n#include <" := by rfl
  have hparse : Directive.parseLine "#include b" (.count 1) "/w/a" =
      .ok (some ⟨.count 1, "b", .bare, "/w/a"⟩) := by rfl
  have henter : (opening c "/w/a").enter "/w/b" (some ⟨"/w/a", .count 1⟩) = .ok l := by rfl
  have hlast : Course v ⟨"/w"⟩ false l (.lines "/w/b" 2 ["#include <"])
    (.error (.failure { f with includeStack := none })) [] := .malformed (by rfl)
  have hlines : Course v ⟨"/w"⟩ false l (.lines "/w/b" 1 ["x", "#include <"])
    (.error (.failure { f with includeStack := none })) [] := .plain (by rfl) hlast
  have hinside : Course v ⟨"/w"⟩ false l (.file "/w/b") (.error (.failure f))
    [⟨"/w/b", ["/w/a", "/w/b"]⟩] := .readable hinner hlines
  have hinput : Course v ⟨"/w"⟩ false (opening c "/w/a") (.lines "/w/a" 1 ["#include b"])
    (.error (.failure f)) [⟨"/w/b", ["/w/a", "/w/b"]⟩] := .failed hparse htarget henter hinside
  have hcourse : Course v ⟨"/w"⟩ false (opening c "/w/a") (.file "/w/a") (.error (.failure f))
    [⟨"/w/a", ["/w/a"]⟩, ⟨"/w/b", ["/w/a", "/w/b"]⟩] := .readable houter hinput
  have houtcome : stumbling.outcome ["w"] o "a" = .error (.failure f) := by
    rw [Machine.outcome_eq hs, outcomeOf_of_course (v := v) hc hfile hr hcourse]
    rfl
  obtain ⟨f', below, last, hf, hstack, -, hchain, hlast, hdescends, hplace, -⟩ :=
    process_localises_failure hs hc hfile hr houtcome
  cases hf
  cases hstack
  cases hlast
  rcases hplace with ⟨hnone, -⟩ | ⟨i, line, hlocation, hearlier, -, hline, hinclude⟩
  · cases hnone
  · exact ⟨houtcome, hchain, hdescends, i, line, Option.some.inj hlocation, hearlier, hline,
      hinclude⟩

end Preprocessor
end Inliner
