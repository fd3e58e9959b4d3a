import Inliner.Proofs.Cycle

/-! The limit on open files is a threshold: a run that it does not stop ends the same under every
higher one, and a tree of includes is expanded if it is no higher than the limit. -/
namespace Inliner

/-- The failure of a file for which there is no room. -/
def Thrown.IsTooDeep (e : Thrown) : Prop :=
  ∃ f path limit location, e = .failure f ∧ f.problem = .tooDeep path limit location

theorem Thrown.isTooDeep_attach {e : Thrown} {stack : List String} :
    (e.attach stack).IsTooDeep ↔ e.IsTooDeep := by
  cases e with
  | failure f => simp [attach, IsTooDeep]
  | error e => simp [attach, IsTooDeep]
  | value v => simp [attach, IsTooDeep]

def Options.withDepth (o : Options) (n : Number) : Options :=
  { o with maxIncludeDepth := .number n }

def Config.withDepth (c : Config) (n : Number) : Config := { c with maxIncludeDepth := n }

theorem Config.depthOf_number {n : Number} (hn : n.isPositiveInteger = true) :
    depthOf (.number n) = .ok n := by
  have hgiven : (Value.number n).orElse (.number (.count defaultDepth)) = .number n := rfl
  simp [depthOf, hgiven, positiveInteger?, hn]

theorem Config.ofOptions_withDepth {n m : Number} (hn : n.isPositiveInteger = true)
    (hm : m.isPositiveInteger = true) (cwd : Names) (o : Options) :
    ofOptions cwd (o.withDepth m) = (ofOptions cwd (o.withDepth n)).map fun c => c.withDepth m := by
  obtain ⟨debug, depth, base⟩ := o
  unfold ofOptions Options.withDepth
  rw [depthOf_number hn, depthOf_number hm]
  cases base.isTruthy with
  | false => rfl
  | true => cases pathOf cwd base <;> rfl

theorem Config.forInput_withDepth {n m : Number} (hn : n.isPositiveInteger = true)
    (hm : m.isPositiveInteger = true) (cwd : Names) (o : Options) (input : String) :
    forInput cwd (o.withDepth m) input =
      (forInput cwd (o.withDepth n) input).map fun c => c.withDepth m :=
  ofOptions_withDepth hn hm cwd { o with baseDirectory := _ }

namespace Ledger

def withLimit (l : Ledger) (limit : Value) : Ledger := { l with limit }

namespace Kept

variable {l : Ledger} (hl : l.Kept) {n : Number} (hn : n.isPositiveInteger = true)
  (hle : l.capacity ≤ n.floorNat)
include hl hn hle

theorem withLimit : (l.withLimit (.number n)).Kept :=
  ⟨hn, hl.nodup, hl.agrees, hl.depth_le.trans hle⟩

theorem enter_withLimit {path : String} {location : Option Location} {l' : Ledger}
    (h : l.enter path location = .ok l') :
    (l.withLimit (.number n)).enter path location = .ok (l'.withLimit (.number n)) := by
  obtain ⟨hnew, hless, rfl⟩ := hl.enter_eq_ok_iff.mp h
  exact (hl.withLimit hn hle).enter_eq_ok_iff.mpr ⟨hnew, hless.trans_le hle, rfl⟩

theorem refuse_withLimit {path : String} {location : Option Location} {e : Thrown}
    (h : l.enter path location = .error e) (he : ¬e.IsTooDeep) :
    (l.withLimit (.number n)).enter path location = .error e := by
  by_cases hmem : path ∈ l.opened
  · rw [hl.enter_of_mem hmem] at h
    rw [(hl.withLimit hn hle).enter_of_mem hmem]
    exact h
  · rw [hl.enter_of_not_mem hmem] at h
    split at h
    · cases h
    · cases h
      exact absurd ⟨_, _, _, _, rfl, rfl⟩ he

end Kept
end Ledger

namespace Expansion

variable {v : Host Id} {r : Resolver} {debug : Bool} {l : Ledger}

/-- A course that does not end for want of room is the course under every higher limit. -/
theorem Course.withLimit {task : Task} {out : Except Thrown (List String)} {visits : List Visit}
    (hc : Course v r debug l task out visits) (hl : l.Kept) {n : Number}
    (hn : n.isPositiveInteger = true) (hle : l.capacity ≤ n.floorNat)
    (hout : ∀ e, out = .error e → ¬e.IsTooDeep) :
    Course v r debug (l.withLimit (.number n)) task out visits := by
  induction hc with
  | unreadable read => exact .unreadable read
  | readable read below ih =>
    refine .readable read (ih hl hle fun e he => ?_)
    have hattached := hout (e.attach _) (by rw [he]; rfl)
    rwa [Thrown.isTooDeep_attach] at hattached
  | done => exact .done
  | plain parse below ih =>
    exact .plain parse (ih hl hle fun e he => hout e (map_eq_error_iff.mpr he))
  | malformed parse => exact .malformed parse
  | unresolved parse resolve => exact .unresolved parse resolve
  | refused parse resolve enter =>
    exact .refused parse resolve (hl.refuse_withLimit hn hle enter (hout _ rfl))
  | failed parse resolve enter inside ih =>
    have hcapacity := congrArg Ledger.capacity (Ledger.enter_eq_ok enter)
    exact .failed parse resolve (hl.enter_withLimit hn hle enter)
      (ih (hl.enter enter) (hcapacity.trans_le hle) hout)
  | inlined parse resolve enter inside below ihi ihb =>
    have hcapacity := congrArg Ledger.capacity (Ledger.enter_eq_ok enter)
    exact .inlined parse resolve (hl.enter_withLimit hn hle enter)
      (ihi (hl.enter enter) (hcapacity.trans_le hle) (by simp))
      (ihb hl hle fun e he => hout e (map_eq_error_iff.mpr he))

end Expansion

namespace IncludeTree

open IncludeGraph

/-- How many files are on the longest chain of a tree, the one at its root among them. -/
def height : IncludeTree → Nat
  | done => 1
  | line _ rest => rest.height
  | block _ _ inside rest => max (inside.height + 1) rest.height

variable (v : Host Id) (r : Resolver)

/-- One of `lines`, which stand in `path` from line `number` on, is a directive for `target`. -/
def AsksFor (path : String) (number : Nat) (lines : List String) (target : String) : Prop :=
  ∃ i line d, lines[i]? = some line ∧
    Directive.parseLine line (.count (number + i)) path = .ok (some d) ∧
    r.targetOf v d = .ok target

/-- How many files are on the chains that start with `path`. -/
def chainLengths (path : String) : Set Nat :=
  {k | ∃ below, (path :: below).IsChain (Includes v r) ∧ (path :: below).length = k}

def lengthsThrough (path : String) (number : Nat) (lines : List String) : Set Nat :=
  {k | k = 1 ∨ ∃ target, AsksFor v r path number lines target ∧
    ∃ j ∈ chainLengths v r target, j + 1 = k}

variable {v r} {path : String} {number : Nat}

theorem asksFor_cons {text : String} {lines : List String} {target : String} :
    AsksFor v r path number (text :: lines) target ↔
      (∃ d, Directive.parseLine text (.count number) path = .ok (some d) ∧
        r.targetOf v d = .ok target) ∨ AsksFor v r path (number + 1) lines target := by
  constructor
  · rintro ⟨i, line, d, hi, hparse, ht⟩
    cases i with
    | zero =>
      obtain rfl : text = line := by simpa using hi
      exact .inl ⟨d, hparse, ht⟩
    | succ i =>
      refine .inr ⟨i, line, d, by simpa using hi, ?_, ht⟩
      rwa [Nat.add_right_comm]
  · rintro (⟨d, hparse, ht⟩ | ⟨i, line, d, hi, hparse, ht⟩)
    · exact ⟨0, text, d, rfl, hparse, ht⟩
    · refine ⟨i + 1, line, d, by simpa using hi, ?_, ht⟩
      rwa [Nat.add_right_comm] at hparse

theorem includes_iff_asksFor {text : String} (htext : v.textOf path = .ok text) {target : String} :
    Includes v r path target ↔ AsksFor v r path 1 (Text.splitLines text) target := by
  constructor
  · rintro ⟨d, ⟨i, line, hline, hparse⟩, ht⟩
    rw [Nat.add_comm] at hparse
    exact ⟨i, line, d, hline.of_text htext, hparse, ht⟩
  · rintro ⟨i, line, d, hi, hparse, ht⟩
    rw [Nat.add_comm] at hparse
    exact ⟨d, ⟨i, line, ⟨text, htext, hi⟩, hparse⟩, ht⟩

theorem chainLengths_eq {text : String} (htext : v.textOf path = .ok text) :
    chainLengths v r path = lengthsThrough v r path 1 (Text.splitLines text) := by
  ext k
  constructor
  · rintro ⟨below, hchain, rfl⟩
    cases below with
    | nil => exact .inl rfl
    | cons target below =>
      obtain ⟨ht, htail⟩ := List.isChain_cons_cons.mp hchain
      exact .inr ⟨target, (includes_iff_asksFor htext).mp ht, _, ⟨below, htail, rfl⟩, rfl⟩
  · rintro (rfl | ⟨target, ht, j, ⟨below, htail, rfl⟩, rfl⟩)
    · exact ⟨[], .singleton path, rfl⟩
    · exact ⟨target :: below, .cons_cons ((includes_iff_asksFor htext).mpr ht) htail, rfl⟩

theorem lengthsThrough_nil : lengthsThrough v r path number [] = {1} := by
  ext k
  simp [lengthsThrough, AsksFor]

theorem lengthsThrough_of_plain {text : String} {lines : List String}
    (hplain : Directive.parseLine text (.count number) path = .ok none) :
    lengthsThrough v r path number (text :: lines) =
      lengthsThrough v r path (number + 1) lines := by
  ext k
  simp [lengthsThrough, asksFor_cons, hplain]

theorem lengthsThrough_of_directive {text target : String} {lines : List String} {d : Directive}
    (hasks : Directive.parseLine text (.count number) path = .ok (some d))
    (ht : r.targetOf v d = .ok target) :
    lengthsThrough v r path number (text :: lines) =
      Set.image (· + 1) (chainLengths v r target) ∪
        lengthsThrough v r path (number + 1) lines := by
  ext k
  constructor
  · rintro (rfl | ⟨other, hother, j, hj, rfl⟩)
    · exact .inr (.inl rfl)
    · rcases asksFor_cons.mp hother with ⟨d', hparse, hd'⟩ | hlater
      · rw [hasks] at hparse
        cases hparse
        rw [ht] at hd'
        cases hd'
        exact .inl ⟨j, hj, rfl⟩
      · exact .inr (.inr ⟨other, hlater, j, hj, rfl⟩)
  · rintro (⟨j, hj, rfl⟩ | rfl | ⟨other, hother, j, hj, rfl⟩)
    · exact .inr ⟨target, asksFor_cons.mpr (.inl ⟨d, hasks, ht⟩), j, hj, rfl⟩
    · exact .inl rfl
    · exact .inr ⟨other, asksFor_cons.mpr (.inr hother), j, hj, rfl⟩

theorem Grows.isGreatest_height {lines : List String} {tree : IncludeTree}
    (h : Grows v r path number lines tree) :
    IsGreatest (lengthsThrough v r path number lines) tree.height := by
  induction h with
  | done =>
    rw [lengthsThrough_nil]
    exact isGreatest_singleton
  | line plain below ih =>
    rw [lengthsThrough_of_plain plain]
    exact ih
  | @block path target content text number lines d inside rest asks resolves reads within below
      ihw ihb =>
    have hinside : IsGreatest (chainLengths v r target) inside.height := by
      rw [chainLengths_eq reads]
      exact ihw
    rw [lengthsThrough_of_directive asks resolves]
    exact (Monotone.map_isGreatest (fun _ _ hle => Nat.succ_le_succ hle) hinside).union ihb

/-- The height of the tree of a file is the length of the longest chain that starts with it. -/
theorem IsTreeOf.isGreatest_height {tree : IncludeTree} (h : IsTreeOf v r tree path) :
    IsGreatest (chainLengths v r path) tree.height := by
  obtain ⟨text, htext, hgrows⟩ := h
  rw [chainLengths_eq htext]
  exact hgrows.isGreatest_height

end IncludeTree

namespace Preprocessor

open IncludeGraph IncludeTree

section plain

variable {v : Host Id} {o : Options} {input : String} {c : Config} {file : String} {r : Resolver}
  {n m : Number}

theorem EndsEarly.withDepth (hn : n.isPositiveInteger = true) (hm : m.isPositiveInteger = true)
    {e : Thrown} (h : EndsEarly v (o.withDepth n) input e) :
    EndsEarly v (o.withDepth m) input e :=
  h.of_map (Config.forInput_withDepth hn hm v.cwd o input) fun _ => rfl

theorem maxIncludeDepth_of_withDepth (hn : n.isPositiveInteger = true)
    (hc : Config.forInput v.cwd (o.withDepth n) input = .ok c) : c.maxIncludeDepth = n := by
  have hsame := Config.forInput_withDepth hn hn v.cwd o input
  rw [hc] at hsame
  have hc' : c = c.withDepth n := Except.ok.inj hsame
  rw [hc']
  rfl

theorem outcomeOf_withDepth (hn : n.isPositiveInteger = true) (hm : m.isPositiveInteger = true)
    (hle : n.floorNat ≤ m.floorNat)
    (h : ∀ e, outcomeOf v (o.withDepth n) input = .error e → ¬e.IsTooDeep) :
    outcomeOf v (o.withDepth m) input = outcomeOf v (o.withDepth n) input := by
  rcases starts_or_endsEarly v (o.withDepth n) input with ⟨c, file, r, hc, hfile, hr⟩ | ⟨e, he⟩
  · have hdepth := maxIncludeDepth_of_withDepth hn hc
    have hkept := kept_opening (Config.isPositiveInteger_of_forInput hc) file
    have hc' : Config.forInput v.cwd (o.withDepth m) input = .ok (c.withDepth m) := by
      rw [Config.forInput_withDepth hn hm, hc]
      rfl
    obtain ⟨out, visits, hcourse⟩ := @Expansion.exists_course v r c.marks _ hkept file
    have houtcome := outcomeOf_of_course hc hfile hr hcourse
    rw [houtcome] at h ⊢
    have hcourse' := hcourse.withLimit hkept hm (by rwa [opening_capacity, hdepth])
      fun e he => h e (map_eq_error_iff.mpr he)
    exact outcomeOf_of_course hc' hfile hr hcourse'
  · rw [he.outcomeOf_eq, (he.withDepth hn hm).outcomeOf_eq]

theorem tooDeep_of_expansion (hpos : c.maxIncludeDepth.isPositiveInteger = true)
    (hsound : ∀ g ∈ Reachable v r file, Sound v r g)
    (hsimple : ∀ below, (file :: below).IsChain (Includes v r) → (file :: below).Nodup)
    {e : Thrown}
    (h : (Expansion.expandWithin v r c.marks (c.maxIncludeDepth.floorNat + 1) file).result
      (opening c file) = .error e) :
    ∃ f path location stack, e = .failure f ∧
      f.problem = .tooDeep path (.number c.maxIncludeDepth) location ∧
      f.includeStack = some stack ∧ stack.length = c.maxIncludeDepth.floorNat := by
  obtain ⟨below, target, location, cause, hchain, hkept, henter, rfl⟩ :=
    refused_of_expansion hpos hsound h
  -- an open target would be on its own chain twice, so it is not refused as circular
  have hnew : target ∉ ((opening c file).pushAll below).opened := by
    have hnodup := hsimple _ hchain
    rw [← List.cons_append, List.nodup_append] at hnodup
    intro hmem
    exact hnodup.2.2 target (by simpa [or_comm] using hmem) target (by simp) rfl
  have hdepth := hkept.depth_le
  rw [hkept.enter_of_not_mem hnew] at henter
  split at henter
  · cases henter
  · rename_i hfull
    cases henter
    refine ⟨_, target, location, file :: below, rfl, ?_, rfl, ?_⟩
    · rw [Failure.attach_problem, Ledger.pushAll_limit]
      rfl
    · rw [Ledger.pushAll_capacity, opening_capacity] at hdepth hfull
      rw [← Ledger.length_stack, Ledger.pushAll_stack, opening_stack] at hdepth hfull
      exact Nat.le_antisymm hdepth (Nat.not_lt.mp hfull)

theorem outcomeOf_of_height (hn : n.isPositiveInteger = true)
    (hc : Config.forInput v.cwd (o.withDepth n) input = .ok c)
    (hfile : fileOf v input = .ok file) (hr : resolverOf v c = .ok r) {text : String}
    (h : outcomeOf v (o.withDepth n) input = .ok text) {tree : IncludeTree}
    (htree : IsTreeOf v r tree file) (hm : m.isPositiveInteger = true) :
    (tree.height ≤ m.floorNat → outcomeOf v (o.withDepth m) input = .ok text) ∧
    (m.floorNat < tree.height → ∃ f path location stack,
      outcomeOf v (o.withDepth m) input = .error (.failure f) ∧
      f.problem = .tooDeep path (.number m) location ∧ f.includeStack = some stack ∧
      stack.length = m.floorNat) := by
  have hc' : Config.forInput v.cwd (o.withDepth m) input = .ok (c.withDepth m) := by
    rw [Config.forInput_withDepth hn hm, hc]
    rfl
  obtain ⟨hattained, hgreatest⟩ := htree.isGreatest_height
  have hexpandable := (outcomeOf_eq_ok_iff hc hfile hr).mp ⟨text, h⟩
  constructor
  · intro hhigh
    have hshort : Expandable v r m.floorNat file :=
      ⟨hexpandable.sound, hexpandable.simple, fun below hchain =>
        (hgreatest ⟨below, hchain, rfl⟩).trans hhigh⟩
    obtain ⟨text', h'⟩ := (outcomeOf_eq_ok_iff hc' hfile hr).mpr hshort
    obtain ⟨one, hone, rfl⟩ := isTreeOf_of_outcomeOf hc hfile hr h
    obtain ⟨other, hother, rfl⟩ := isTreeOf_of_outcomeOf hc' hfile hr h'
    rw [h', hone.unique hother]
    rfl
  · intro hlow
    cases h' : outcomeOf v (o.withDepth m) input with
    | ok text' =>
      have hexpandable' := (outcomeOf_eq_ok_iff hc' hfile hr).mp ⟨text', h'⟩
      obtain ⟨below, hchain, hlength⟩ := hattained
      have hshort : (file :: below).length ≤ m.floorNat := hexpandable'.short below hchain
      omega
    | error e =>
      rw [outcomeOf_eq v (o.withDepth m) input hc' hfile hr, map_eq_error_iff] at h'
      obtain ⟨f, path, location, stack, rfl, hf⟩ :=
        tooDeep_of_expansion hm hexpandable.sound hexpandable.simple h'
      exact ⟨f, path, location, stack, rfl, hf⟩

end plain

/-- The limit is a sharp threshold. A run that does not end for want of room ends the same under
every higher limit. A run that returns a text returns it under every limit from the height of its
include tree on, which is the length of the longest chain; under each lower limit it ends for want
of room, told with that limit and as many open files as it allows. -/
theorem process_depth_threshold {s : Machine} (hs : s.Steady) (cwd : Names) (o : Options)
    (input : String) :
    (∀ n m : Number, n.isPositiveInteger = true → m.isPositiveInteger = true →
      n.floorNat ≤ m.floorNat →
      (∀ e, s.outcome cwd (o.withDepth n) input = .error e → ¬e.IsTooDeep) →
      s.outcome cwd (o.withDepth m) input = s.outcome cwd (o.withDepth n) input) ∧
    ∀ (n : Number) (text : String), n.isPositiveInteger = true →
      s.outcome cwd (o.withDepth n) input = .ok text →
      ∃ c file r tree, Config.forInput cwd (o.withDepth n) input = .ok c ∧
        fileOf (s.view cwd) input = .ok file ∧ resolverOf (s.view cwd) c = .ok r ∧
        IsTreeOf (s.view cwd) r tree file ∧
        IsGreatest (chainLengths (s.view cwd) r file) tree.height ∧
        ∀ m : Number, m.isPositiveInteger = true →
          (tree.height ≤ m.floorNat → s.outcome cwd (o.withDepth m) input = .ok text) ∧
          (m.floorNat < tree.height → ∃ f path location stack,
            s.outcome cwd (o.withDepth m) input = .error (.failure f) ∧
            f.problem = .tooDeep path (.number m) location ∧ f.includeStack = some stack ∧
            stack.length = m.floorNat) := by
  simp only [Machine.outcome_eq hs]
  refine ⟨fun n m hn hm hle h => outcomeOf_withDepth hn hm hle h, fun n text hn h => ?_⟩
  rcases starts_or_endsEarly (s.view cwd) (o.withDepth n) input with
    ⟨c, file, r, hc, hfile, hr⟩ | ⟨e, he⟩
  · obtain ⟨tree, htree, -⟩ := isTreeOf_of_outcomeOf hc hfile hr h
    exact ⟨c, file, r, tree, hc, hfile, hr, htree, htree.isGreatest_height,
      fun m hm => outcomeOf_of_height hn hc hfile hr h htree hm⟩
  · rw [he.outcomeOf_eq] at h
    cases h

theorem nested_process_depth_threshold :
    let outcome (n : Number) := nested.outcome ["w"] (({} : Options).withDepth n) "a"
    outcome (.count 2) = .ok "y\nx\n" ∧ outcome (.count 1000) = .ok "y\nx\n" ∧
    ∃ f path location stack, outcome (.count 1) = .error (.failure f) ∧
      f.problem = .tooDeep path (.number (.count 1)) location ∧ f.includeStack = some stack ∧
      stack.length = 1 := by
  have hfile : fileOf (nested.view ["w"]) "a" = .ok "/w/a" := by rfl
  have hr : resolverOf (nested.view ["w"]) ⟨.bool false, .count 2, ["w"]⟩ = .ok ⟨"/w"⟩ := by rfl
  have htarget : Resolver.targetOf ⟨"/w"⟩ (nested.view ["w"])
      ⟨.count 1, "b", .bare, "/w/a"⟩ = .ok "/w/b" := by rfl
  intro outcome
  let c : Config := ⟨.bool false, .count 2, ["w"]⟩
  let v := nested.view ["w"]
  let l := (opening c "/w/a").push "/w/b"
  have hs : nested.Steady := Machine.steady_of_faults_eq_nil rfl
  have hc : Config.forInput ["w"] (({} : Options).withDepth (.count 2)) "a" = .ok c := by rfl
  have houter : v.textOf "/w/a" = .ok "#include b\nx\n" := by rfl
  have hinner : v.textOf "/w/b" = .ok "y" := by rfl
  have hparse : Directive.parseLine "#include b" (.count 1) "/w/a" =
      .ok (some ⟨.count 1, "b", .bare, "/w/a"⟩) := by rfl
  have hx : Directive.parseLine "x" (.count 2) "/w/a" = .ok none := by rfl
  have hy : Directive.parseLine "y" (.count 1) "/w/b" = .ok none := by rfl
  have htree : IsTreeOf v ⟨"/w"⟩ (.block "b" "/w/b" (.line "y" .done) (.line "x" .done)) "/w/a" :=
    ⟨_, houter, .block hparse htarget hinner (.line hy .done) (.line hx .done)⟩
  have henter : (opening c "/w/a").enter "/w/b" (some ⟨"/w/a", .count 1⟩) = .ok l := by rfl
  have hinside : Expansion.Course v ⟨"/w"⟩ false l (.file "/w/b") (.ok ["y"])
    [⟨"/w/b", ["/w/a", "/w/b"]⟩] := .readable hinner (.plain hy .done)
  have hlines : Expansion.Course v ⟨"/w"⟩ false (opening c "/w/a")
      (.lines "/w/a" 1 ["#include b", "x"]) (.ok ["y", "x"]) [⟨"/w/b", ["/w/a", "/w/b"]⟩] :=
    .inlined hparse htarget henter hinside (.plain hx .done)
  have hcourse : Expansion.Course v ⟨"/w"⟩ false (opening c "/w/a") (.file "/w/a")
      (.ok ["y", "x"]) [⟨"/w/a", ["/w/a"]⟩, ⟨"/w/b", ["/w/a", "/w/b"]⟩] :=
    .readable houter hlines
  have htwo : outcome (.count 2) = .ok "y\nx\n" := by
    show nested.outcome _ _ _ = _
    rw [Machine.outcome_eq hs, outcomeOf_of_course (v := v) hc hfile hr hcourse]
    rfl
  obtain ⟨hsame, hheight⟩ := process_depth_threshold hs ["w"] {} "a"
  have hmore : outcome (.count 1000) = outcome (.count 2) :=
    hsame (.count 2) (.count 1000) rfl rfl (by decide) fun e he => by
      rw [show nested.outcome _ _ _ = _ from htwo] at he
      cases he
  obtain ⟨c', file', r', tree, hc', hfile', hr', htree', -, hlimits⟩ :=
    hheight (.count 2) _ rfl htwo
  rw [hc] at hc'
  cases hc'
  rw [hfile] at hfile'
  cases hfile'
  rw [hr] at hr'
  cases hr'
  have hlow : (Number.count 1).floorNat < tree.height := by
    rw [htree.unique htree']
    decide
  exact ⟨htwo, hmore.trans htwo, (hlimits (.count 1) rfl).2 hlow⟩

end Preprocessor
end Inliner
