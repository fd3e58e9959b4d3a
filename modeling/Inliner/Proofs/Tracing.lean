import Inliner.Proofs.Course

/-! Runs follow the course of their expansion: given enough room, a task ends as its course does and
reads the files of its visits, whatever the surroundings are. -/
namespace Inliner

variable {m : Type → Type} [Monad m]

/-- What computations come to and which files they read, for some reading of that which respects
values and sequences. -/
structure Tracing (m : Type → Type) [Monad m] where
  Rel : {α : Type} → m α → α → List String → Prop
  value : ∀ {α : Type} (a : α), Rel (pure a : m α) a []
  sequence : ∀ {α β : Type} {x : m α} {a : α} {f : α → m β} {b : β} {reads more : List String},
    Rel x a reads → Rel (f a) b more → Rel (x >>= f) b (reads ++ more)

namespace Tracing

variable (t : Tracing m) {α β : Type}

def silent : Correspondence m where
  Rel x a := t.Rel x a []
  value := t.value
  sequence hx hf := t.sequence hx hf

/-- A computation that may raise ends with `a`. -/
def Ends (x : ExceptT Thrown m α) (a : Except Thrown α) (reads : List String) : Prop :=
  t.Rel x.run a reads

def Runs (x : Ledgered m α) (l : Ledger) (a : Except Thrown α) (l' : Ledger)
    (reads : List String) : Prop :=
  t.Rel (x.run l) (a, l') reads

variable {t}

theorem Ends.then {x : ExceptT Thrown m α} {f : α → ExceptT Thrown m β} {a : α}
    {b : Except Thrown β} {reads more : List String} (hx : t.Ends x (.ok a) reads)
    (hf : t.Ends (f a) b more) : t.Ends (x >>= f) b (reads ++ more) :=
  t.sequence hx hf

theorem Ends.stop {x : ExceptT Thrown m α} {f : α → ExceptT Thrown m β} {e : Thrown}
    {reads : List String} (hx : t.Ends x (.error e) reads) :
    t.Ends (x >>= f) (.error e) reads := by
  have hend := t.sequence (f := ExceptT.bindCont f) hx (t.value (Except.error e))
  rwa [List.append_nil] at hend

theorem ends_lift [LawfulMonad m] {x : m α} {a : α} {reads : List String} (hx : t.Rel x a reads) :
    t.Ends (ExceptT.lift x) (.ok a) reads := by
  show t.Rel (Except.ok <$> x) (Except.ok a) reads
  rw [map_eq_pure_bind, ← List.append_nil reads]
  exact t.sequence hx (t.value _)

theorem Ends.onPath {path : String} {location : Option Location} {x : ExceptT Thrown m α}
    {a : Except Thrown α} {reads : List String} (hx : t.Ends x a reads) :
    t.Ends (Inliner.onPath path location x)
      (a.mapError fun e => .failure (e.onPath path location)) reads := by
  rw [← List.append_nil reads]
  refine t.sequence hx ?_
  cases a with
  | ok a => exact t.value (Except.ok a)
  | error e => exact t.value (Except.error _)

theorem Runs.then {x : Ledgered m α} {f : α → Ledgered m β} {l l' l'' : Ledger} {a : α}
    {b : Except Thrown β} {reads more : List String} (hx : t.Runs x l (.ok a) l' reads)
    (hf : t.Runs (f a) l' b l'' more) : t.Runs (x >>= f) l b l'' (reads ++ more) :=
  t.sequence hx hf

theorem Runs.thenSilent {x : Ledgered m α} {f : α → Ledgered m β} {l l' l'' : Ledger} {a : α}
    {b : Except Thrown β} {reads : List String} (hx : t.Runs x l (.ok a) l' reads)
    (hf : t.Runs (f a) l' b l'' []) : t.Runs (x >>= f) l b l'' reads := by
  rw [← List.append_nil reads]
  exact hx.then hf

theorem Runs.silentThen {x : Ledgered m α} {f : α → Ledgered m β} {l l' l'' : Ledger} {a : α}
    {b : Except Thrown β} {reads : List String} (hx : t.Runs x l (.ok a) l' [])
    (hf : t.Runs (f a) l' b l'' reads) : t.Runs (x >>= f) l b l'' reads :=
  hx.then hf

theorem Runs.stop {x : Ledgered m α} {f : α → Ledgered m β} {l l' : Ledger} {e : Thrown}
    {reads : List String} (hx : t.Runs x l (.error e) l' reads) :
    t.Runs (x >>= f) l (.error e) l' reads := by
  show t.Rel (x.run l >>= fun p => ExceptT.bindCont f p.1 p.2) _ reads
  rw [← List.append_nil reads]
  exact t.sequence hx (t.value (Except.error e, l'))

theorem runs_pure (a : α) (l : Ledger) : t.Runs (pure a) l (.ok a) l [] :=
  t.value (Except.ok a, l)

theorem runs_throw (e : Thrown) (l : Ledger) :
    t.Runs (throw e : Ledgered m α) l (.error e) l [] :=
  t.value (Except.error e, l)

theorem runs_ledger (l : Ledger) : t.Runs Ledgered.ledger l (.ok l) l [] :=
  t.value (Except.ok l, l)

theorem runs_update_of_ok {f : Ledger → Except Thrown Ledger} {l l' : Ledger} (h : f l = .ok l') :
    t.Runs (Ledgered.update f) l (.ok ()) l' [] := by
  have hrun : (Ledgered.update f : Ledgered m Unit).run l = pure (.ok (), l') := by
    show pure _ = _
    rw [h]
  rw [Runs, hrun]
  exact t.value _

theorem runs_update_of_error {f : Ledger → Except Thrown Ledger} {l : Ledger} {e : Thrown}
    (h : f l = .error e) : t.Runs (Ledgered.update f) l (.error e) l [] := by
  have hrun : (Ledgered.update f : Ledgered m Unit).run l = pure (.error e, l) := by
    show pure _ = _
    rw [h]
  rw [Runs, hrun]
  exact t.value _

theorem Ends.outside {x : ExceptT Thrown m α} {a : Except Thrown α} {reads : List String}
    (hx : t.Ends x a reads) (l : Ledger) : t.Runs (Ledgered.outside x) l a l reads := by
  show t.Rel (x.run >>= fun r => pure (r, l)) _ reads
  rw [← List.append_nil reads]
  exact t.sequence hx (t.value (a, l))

theorem Runs.outcome {x : Ledgered m α} {l l' : Ledger} {a : Except Thrown α}
    {reads : List String} (hx : t.Runs x l a l' reads) :
    t.Runs (Ledgered.outcome x) l (.ok a) l' reads := by
  show t.Rel (x.run l >>= fun p => pure (Except.ok p.1, p.2)) _ reads
  rw [← List.append_nil reads]
  exact t.sequence hx (t.value (Except.ok a, l'))

theorem runs_withFile_of_error {path : String} {location : Option Location} {l : Ledger}
    {e : Thrown} (h : l.enter path location = .error e) (x : Ledgered m α) :
    t.Runs (Ledgered.withFile path location x) l (.error e) l [] :=
  Runs.stop (runs_update_of_error h)

theorem Runs.withFile {path : String} {location : Option Location} {l l' : Ledger}
    {x : Ledgered m α} {a : Except Thrown α} {reads : List String}
    (henter : l.enter path location = .ok l') (hx : t.Runs x l' a l' reads) :
    t.Runs (Ledgered.withFile path location x) l a l reads := by
  have hleave : l'.leave = .ok l := by
    rw [Ledger.enter_eq_ok henter, Ledger.leave_push]
  refine Runs.silentThen (runs_update_of_ok henter) ?_
  refine Runs.thenSilent hx.outcome ?_
  refine Runs.silentThen (runs_update_of_ok hleave) ?_
  cases a with
  | ok a => exact runs_pure a l
  | error e => exact runs_throw e l

end Tracing

/-- The calls of `h` come to the answers of `v`, and the reads among them leave their trace. -/
structure Host.Traced (t : Tracing m) (h : Host m) (v : Host Id) : Prop where
  quiet : h.Corresponds t.silent (fun _ => False) v
  read : ∀ path, t.Ends (h.read path) (v.read path) [path]

namespace Expansion

open Tracing

/-- A task as a computation, with room for `room` files inside its own. -/
def Task.run (h : Host m) (r : Resolver) (debug : Bool) (room : Nat) :
    Task → Ledgered m (List String)
  | .file path => expandWithin h r debug (room + 1) path
  | .lines path number rest =>
    expandLines h r debug path (expandWithin h r debug room) number rest

theorem Course.exists_room {v : Host Id} {r : Resolver} {debug : Bool} {l l' : Ledger}
    {path : String} {out : Except Thrown (List String)} {visits : List Visit}
    (hc : Course v r debug l' (.file path) out visits) {location : Option Location}
    (henter : l.enter path location = .ok l') {room : Nat}
    (hroom : ∀ visit ∈ visits, visit.stack.length ≤ room + l.depth) :
    ∃ inner, room = inner + 1 ∧ ∀ visit ∈ visits, visit.stack.length ≤ inner + l'.depth := by
  obtain rfl := Ledger.enter_eq_ok henter
  have hfirst := hroom _ hc.mem_visits
  rw [Ledger.length_stack, Ledger.push_depth] at hfirst
  refine ⟨room - 1, by omega, fun visit hvisit => ?_⟩
  have hlength := hroom visit hvisit
  rw [Ledger.push_depth]
  omega

variable {t : Tracing m}

theorem runs_append {x : Ledgered m (List String)} {l : Ledger}
    {out : Except Thrown (List String)} {reads : List String} (hx : t.Runs x l out l reads)
    (here : List String) :
    t.Runs (x >>= fun more => pure (here ++ more)) l (out.map (here ++ ·)) l reads := by
  cases out with
  | ok more => exact hx.thenSilent (runs_pure _ l)
  | error e => exact hx.stop

variable {h : Host m} {v : Host Id} (hh : h.Traced t v) {r : Resolver} {debug : Bool}
include hh

theorem runs_readSource {path : String} {text : Except Thrown String} (hread : v.textOf path = text)
    (l : Ledger) : t.Runs (Ledgered.outside (h.readSource path none)) l text l [path] := by
  rw [← hread]
  unfold Host.textOf Host.readSource
  rw [run_onPath]
  exact (hh.read path).onPath.outside l

variable [LawfulMonad m]

theorem runs_log (record : Log.Record) (l : Ledger) :
    t.Runs (Ledgered.outside (h.log record)) l (.ok ()) l [] := by
  exact Ends.outside (ends_lift (hh.quiet.log record)) l

theorem runs_resolve {d : Directive} {target : Except Thrown String}
    (hresolve : r.targetOf v d = target) (l : Ledger) :
    t.Runs (Ledgered.outside (r.resolve h d)) l target l [] := by
  have hends : t.Ends (r.resolve h d) (r.targetOf v d) [] := hh.quiet.resolve r d
  rw [hresolve] at hends
  exact hends.outside l

theorem runs_file {room : Nat} {path : String} {l : Ledger} {out : Except Thrown (List String)}
    {reads : List String}
    (hbody : t.Runs (Ledgered.outside (h.readSource path none) >>= fun text =>
      (Task.lines path 1 (Text.splitLines text)).run h r debug room) l out l reads) :
    t.Runs ((Task.file path).run h r debug room) l (out.mapError (Thrown.attach l.stack)) l
      reads := by
  refine Runs.silentThen (runs_ledger l) ?_
  refine Runs.silentThen (runs_log hh _ l) ?_
  refine Runs.thenSilent hbody.outcome ?_
  cases out with
  | ok lines => exact runs_pure lines l
  | error e => exact Runs.silentThen (runs_ledger l) (runs_throw _ l)

/-- A task with room for the files that its course opens ends as the course does and reads the files
of its visits. -/
theorem Course.runs {l : Ledger} {task : Task} {out : Except Thrown (List String)}
    {visits : List Visit} (hc : Course v r debug l task out visits) {room : Nat}
    (hroom : ∀ visit ∈ visits, visit.stack.length ≤ room + l.depth) :
    t.Runs (task.run h r debug room) l out l (visits.map Visit.path) := by
  -- a file that is opened takes one place of the room, which its own visit shows to be there
  induction hc generalizing room with
  | @unreadable l path e read => exact runs_file hh (Runs.stop (runs_readSource hh read l))
  | @readable l path text out visits read below ih =>
    exact runs_file hh ((runs_readSource hh read l).then (ih (List.forall_mem_cons.mp hroom).2))
  | @done l path number => exact runs_pure [] l
  | @plain l path line number rest out visits parse below ih =>
    rw [Task.run, expandLines, parse]
    exact Runs.silentThen (runs_pure [line] l) (runs_append (ih hroom) [line])
  | @malformed l path line number rest e parse =>
    rw [Task.run, expandLines, parse]
    exact Runs.stop (runs_throw e l)
  | @unresolved l path line number rest d e parse resolve =>
    rw [Task.run, expandLines, parse]
    exact Runs.stop (runs_resolve hh resolve l)
  | @refused l path line target number rest d e parse resolve enter =>
    rw [Task.run, expandLines, parse]
    refine (runs_resolve hh resolve l).silentThen ?_
    exact Runs.stop (runs_withFile_of_error enter _)
  | @failed l l' path line target number rest d e visits parse resolve enter inside ih =>
    obtain ⟨inner, rfl, hinner⟩ := inside.exists_room enter hroom
    rw [Task.run, expandLines, parse]
    refine (runs_resolve hh resolve l).silentThen ?_
    exact Runs.stop (Runs.withFile enter (ih hinner))
  | @inlined l l' path line target number rest d lines out visits more parse resolve enter inside
      below ihi ihb =>
    obtain ⟨hvisits, hmore⟩ := List.forall_mem_append.mp hroom
    obtain ⟨inner, rfl, hinner⟩ := inside.exists_room enter hvisits
    rw [Task.run, expandLines, parse, List.map_append]
    refine (runs_resolve hh resolve l).silentThen ?_
    refine (Runs.withFile enter (ihi hinner)).then ?_
    exact Runs.silentThen (runs_pure _ l) (runs_append (ihb hmore) _)

end Expansion

/-- What computations come to, whatever they read. -/
def Correspondence.untraced (c : Correspondence m) : Tracing m where
  Rel x a _ := c.Rel x a
  value := c.value
  sequence := c.sequence

theorem Host.traced_plain (v : Host Id) : v.Traced Correspondence.plain.untraced v where
  quiet := ⟨rfl, fun _ => rfl, fun _ => rfl, fun _ => rfl, fun _ => rfl, fun _ h => h.elim⟩
  read _ := rfl

namespace Expansion

variable {v : Host Id} {r : Resolver} {debug : Bool} {l : Ledger} {path : String}

theorem Course.result_of_room {out : Except Thrown (List String)} {visits : List Visit}
    (hc : Course v r debug l (.file path) out visits) {room : Nat}
    (hroom : ∀ visit ∈ visits, visit.stack.length < room + l.depth) :
    (expandWithin v r debug room path).result l = out := by
  obtain ⟨room, rfl⟩ : ∃ inner, room = inner + 1 := by
    have hfirst := hroom _ hc.mem_visits
    rw [Ledger.length_stack] at hfirst
    exact ⟨room - 1, by omega⟩
  have hrun : (expandWithin v r debug (room + 1) path).run l = (out, l) :=
    hc.runs v.traced_plain fun visit hvisit => by
      have hlength := hroom visit hvisit
      omega
  rw [Ledgered.result, hrun]

theorem Course.result_eq {out : Except Thrown (List String)} {visits : List Visit}
    (hc : Course v r debug l (.file path) out visits) (hl : l.Kept) {room : Nat}
    (hroom : l.capacity < room + l.depth) : (expandWithin v r debug room path).result l = out :=
  hc.result_of_room fun visit hvisit => (hc.inside hl visit hvisit).length_le.trans_lt hroom

theorem Course.result_expand {out : Except Thrown (List String)} {visits : List Visit}
    (hc : Course v r debug l (.file path) out visits) (hl : l.Kept) :
    (expand v r debug path).result l = out := by
  have hdepth := hl.depth_le
  rw [Ledgered.result, run_expand]
  exact hc.result_eq hl (by omega)

theorem result_expandWithin_eq (hl : l.Kept) {room : Nat} (hroom : l.capacity < room + l.depth) :
    (expandWithin v r debug room path).result l = (expand v r debug path).result l := by
  obtain ⟨out, visits, hc⟩ := @exists_course v r debug l hl path
  rw [hc.result_eq hl hroom, hc.result_expand hl]

end Expansion

namespace Preprocessor

open Expansion Tracing

/-- A run that is over before the expansion of its input starts. -/
def EndsEarly (v : Host Id) (o : Options) (input : String) (e : Thrown) : Prop :=
  Config.forInput v.cwd o input = .error e ∨
  ∃ c, Config.forInput v.cwd o input = .ok c ∧
    (fileOf v input = .error e ∨
      ∃ file, fileOf v input = .ok file ∧ resolverOf v c = .error e)

theorem starts_or_endsEarly (v : Host Id) (o : Options) (input : String) :
    (∃ c file r, Config.forInput v.cwd o input = .ok c ∧ fileOf v input = .ok file ∧
      resolverOf v c = .ok r) ∨ ∃ e, EndsEarly v o input e := by
  cases hc : Config.forInput v.cwd o input with
  | error e => exact .inr ⟨e, .inl hc⟩
  | ok c =>
    cases hfile : fileOf v input with
    | error e => exact .inr ⟨e, .inr ⟨c, hc, .inl hfile⟩⟩
    | ok file =>
      cases hr : resolverOf v c with
      | error e => exact .inr ⟨e, .inr ⟨c, hc, .inr ⟨file, hfile, hr⟩⟩⟩
      | ok r => exact .inl ⟨c, file, r, rfl, rfl, hr⟩

theorem not_endsEarly {v : Host Id} {o : Options} {input : String} {c : Config} {file : String}
    {r : Resolver} (hc : Config.forInput v.cwd o input = .ok c) (hfile : fileOf v input = .ok file)
    (hr : resolverOf v c = .ok r) (e : Thrown) : ¬EndsEarly v o input e := by
  rintro (hc' | ⟨c', hc', hfile' | ⟨file', -, hr'⟩⟩)
  · rw [hc] at hc'
    cases hc'
  · rw [hfile] at hfile'
    cases hfile'
  · rw [hc] at hc'
    cases hc'
    rw [hr] at hr'
    cases hr'

/-- A run is over early whatever the settings say of the limit and of markers, as long as they are
valid and name the same base directory. -/
theorem EndsEarly.of_map {v : Host Id} {o o' : Options} {input : String} {f : Config → Config}
    (hc : Config.forInput v.cwd o' input = (Config.forInput v.cwd o input).map f)
    (hbase : ∀ c, (f c).baseDirectory = c.baseDirectory) {e : Thrown}
    (h : EndsEarly v o input e) : EndsEarly v o' input e := by
  rcases h with hsettings | ⟨c, hsettings, hrest⟩
  · refine .inl ?_
    rw [hc, hsettings]
    rfl
  · refine .inr ⟨f c, ?_, ?_⟩
    · rw [hc, hsettings]
      rfl
    · rwa [resolverOf, hbase]

variable {t : Tracing m} {h : Host m} {v : Host Id} (hh : h.Traced t v) {o : Options}
  {input : String}
include hh

theorem ends_fileOf {file : Except Thrown String} (hfile : fileOf v input = file) :
    t.Ends (h.canonicalize (Path.render (Path.resolve v.cwd input)) none) file [] := by
  rw [← hfile]
  exact hh.quiet.canonicalize _ _

theorem ends_resolverOf {c : Config} {r : Except Thrown Resolver} (hr : resolverOf v c = r) :
    t.Ends (Resolver.ofBase h (Path.render c.baseDirectory)) r [] := by
  rw [← hr]
  exact hh.quiet.ofBase _

theorem EndsEarly.ends {e : Thrown} (he : EndsEarly v o input e) :
    t.Ends (process h o input) (.error e) [] := by
  unfold process
  rw [hh.quiet.cwd]
  rcases he with hc | ⟨c, hc, hfile | ⟨file, hfile, hr⟩⟩
  · rw [hc]
    exact t.value _
  · rw [hc]
    exact (ends_fileOf hh hfile).stop
  · rw [hc]
    exact (ends_fileOf hh hfile).then (ends_resolverOf hh hr).stop

variable [LawfulMonad m]

theorem ends_expandInput {c : Config} (hpos : c.maxIncludeDepth.isPositiveInteger = true)
    {r : Resolver} {file : String} {out : Except Thrown (List String)} {visits : List Visit}
    (hcourse : Course v r c.marks (opening c file) (.file file) out visits) :
    t.Ends (expandInput h c r file) out (visits.map Visit.path) := by
  have hkept := kept_opening hpos file
  have hexpand : t.Runs (expand h r c.marks file) (opening c file) out (opening c file)
      (visits.map Visit.path) :=
    (runs_ledger _).silentThen (hcourse.runs hh fun visit hvisit =>
      (hcourse.inside hkept visit hvisit).length_le.trans (Nat.le_add_right _ _))
  have hbody := hexpand.withFile (enter_opening hpos file)
  have hlift : t.Ends (ExceptT.lift _) (.ok _) _ := Tracing.ends_lift hbody
  rw [← List.append_nil (visits.map Visit.path)]
  refine Ends.then hlift ?_
  cases out with
  | ok lines => exact t.value _
  | error e => exact t.value _

/-- A run that gets to its expansion ends as the course of that does. -/
theorem ends_process {c : Config} {file : String} {r : Resolver}
    (hc : Config.forInput v.cwd o input = .ok c) (hfile : fileOf v input = .ok file)
    (hr : resolverOf v c = .ok r) {out : Except Thrown (List String)} {visits : List Visit}
    (hcourse : Course v r c.marks (opening c file) (.file file) out visits) :
    t.Ends (process h o input) (out.map Text.renderLines) (visits.map Visit.path) := by
  have hpos := Config.isPositiveInteger_of_forInput hc
  unfold process
  rw [hh.quiet.cwd, hc]
  refine (ends_fileOf hh hfile).then ((ends_resolverOf hh hr).then ?_)
  have hexpand := ends_expandInput hh hpos hcourse
  cases out with
  | error e => exact hexpand.stop
  | ok lines =>
    rw [← List.append_nil (visits.map Visit.path)]
    refine hexpand.then ?_
    exact Ends.then (Tracing.ends_lift (hh.quiet.log _)) (t.value _)

omit hh [LawfulMonad m] in
theorem EndsEarly.outcomeOf_eq {e : Thrown} (he : EndsEarly v o input e) :
    outcomeOf v o input = .error e :=
  he.ends v.traced_plain

omit hh [LawfulMonad m] in
theorem starts_of_outcomeOf {text : String} (h : outcomeOf v o input = .ok text) :
    ∃ c file r, Config.forInput v.cwd o input = .ok c ∧ fileOf v input = .ok file ∧
      resolverOf v c = .ok r := by
  rcases starts_or_endsEarly v o input with hstarts | ⟨e, he⟩
  · exact hstarts
  · rw [he.outcomeOf_eq] at h
    cases h

omit hh [LawfulMonad m] in
theorem outcomeOf_of_course {c : Config} {file : String} {r : Resolver}
    (hc : Config.forInput v.cwd o input = .ok c) (hfile : fileOf v input = .ok file)
    (hr : resolverOf v c = .ok r) {out : Except Thrown (List String)} {visits : List Visit}
    (hcourse : Course v r c.marks (opening c file) (.file file) out visits) :
    outcomeOf v o input = out.map Text.renderLines :=
  ends_process v.traced_plain hc hfile hr hcourse

end Preprocessor
end Inliner
