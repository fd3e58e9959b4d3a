import Inliner.Preprocessor
import Inliner.Proofs.Ledger
import Inliner.Proofs.Resolution

/-! Expansion on a host that answers as a plain function. It leaves the ledger as it was, and ends
as the first of its lines that fails or with the pieces of all of them. -/
namespace Inliner

namespace Ledgered

variable {α β : Type}

/-- What a computation ends with, started on the ledger `l`. -/
def result (x : Ledgered Id α) (l : Ledger) : Except Thrown α := (x.run l).1

/-- Every ledger is the same after the computation. -/
def Restores (x : Ledgered Id α) : Prop := ∀ l, (x.run l).2 = l

theorem Restores.run_eq {x : Ledgered Id α} (h : x.Restores) (l : Ledger) :
    x.run l = (x.result l, l) :=
  Prod.ext rfl (h l)

theorem run_bind (x : Ledgered Id α) (f : α → Ledgered Id β) (l : Ledger) :
    (x >>= f).run l = match (x.run l).1 with
      | .ok a => (f a).run (x.run l).2
      | .error e => (.error e, (x.run l).2) := by
  show ExceptT.bindCont f (x.run l).1 (x.run l).2 = _
  cases (x.run l).1 <;> rfl

theorem Restores.bind {x : Ledgered Id α} {f : α → Ledgered Id β} (hx : x.Restores)
    (hf : ∀ a, (f a).Restores) : (x >>= f).Restores := by
  intro l
  rw [run_bind, hx.run_eq]
  cases x.result l with
  | ok a => exact hf a l
  | error e => rfl

theorem result_bind {x : Ledgered Id α} (hx : x.Restores) (f : α → Ledgered Id β) (l : Ledger) :
    (x >>= f).result l = x.result l >>= fun a => (f a).result l := by
  rw [result, run_bind, hx.run_eq]
  cases x.result l with
  | ok a => rfl
  | error e => rfl

theorem run_outcome {body : Ledgered Id α} (h : body.Restores) (l : Ledger) :
    (outcome body).run l = (.ok (body.result l), l) := by
  show (Except.ok (body.run l).1, (body.run l).2) = _
  rw [h.run_eq]

theorem run_update_of_ok {f : Ledger → Except Thrown Ledger} {l l' : Ledger} (h : f l = .ok l') :
    (update f : Ledgered Id Unit).run l = (.ok (), l') := by
  show Id.run (pure _) = _
  rw [h]
  rfl

theorem run_update_of_error {f : Ledger → Except Thrown Ledger} {l : Ledger} {e : Thrown}
    (h : f l = .error e) : (update f : Ledgered Id Unit).run l = (.error e, l) := by
  show Id.run (pure _) = _
  rw [h]
  rfl

/-- The file is opened first, and whatever the body has done to the ledger, its innermost file is
closed last. -/
theorem run_withFile_eq (path : String) (location : Option Location) (body : Ledgered Id α)
    (l : Ledger) :
    (withFile path location body).run l = match l.enter path location with
      | .error e => (.error e, l)
      | .ok l' => match (body.run l').2.leave with
        | .ok outer => ((body.run l').1, outer)
        | .error e => (.error e, (body.run l').2) := by
  have houtcome (l' : Ledger) : (outcome body).run l' = (.ok (body.run l').1, (body.run l').2) :=
    rfl
  rw [withFile, run_bind, enter]
  cases he : l.enter path location with
  | error e =>
    rw [run_update_of_error he]
  | ok l' =>
    rw [run_update_of_ok he]
    simp only [run_bind, houtcome]
    cases hleave : (body.run l').2.leave with
    | error e =>
      have hrun : (leave : Ledgered Id Unit).run (body.run l').2 = (.error e, (body.run l').2) :=
        run_update_of_error hleave
      simp only [hrun]
    | ok outer =>
      have hrun : (leave : Ledgered Id Unit).run (body.run l').2 = (.ok (), outer) :=
        run_update_of_ok hleave
      simp only [hrun]
      cases (body.run l').1 with
      | ok a => rfl
      | error e => rfl

theorem run_withFile (path : String) (location : Option Location) {body : Ledgered Id α}
    (h : body.Restores) (l : Ledger) :
    (withFile path location body).run l =
      (l.enter path location >>= fun l' => body.result l', l) := by
  rw [run_withFile_eq]
  cases he : l.enter path location with
  | error e => rfl
  | ok l' =>
    obtain rfl := Ledger.enter_eq_ok he
    simp only [h.run_eq, Ledger.leave_push]
    rfl

theorem restores_withFile (path : String) (location : Option Location) {body : Ledgered Id α}
    (h : body.Restores) : (withFile path location body).Restores :=
  fun l => congrArg Prod.snd (run_withFile path location h l)

theorem result_withFile (path : String) (location : Option Location) {body : Ledgered Id α}
    (h : body.Restores) (l : Ledger) :
    (withFile path location body).result l =
      l.enter path location >>= fun l' => body.result l' :=
  congrArg Prod.fst (run_withFile path location h l)

theorem run_outside (x : ExceptT Thrown Id α) (l : Ledger) : (outside x).run l = (x.run, l) := rfl

theorem restores_outside (x : ExceptT Thrown Id α) : (outside x).Restores := fun _ => rfl

theorem restores_pure (a : α) : (pure a : Ledgered Id α).Restores := fun _ => rfl

theorem restores_throw (e : Thrown) : (throw e : Ledgered Id α).Restores := fun _ => rfl

end Ledgered

namespace Expansion

open Ledgered

variable (v : Host Id) (r : Resolver) (debug : Bool) (path : String)

/-- What line `number` of `path` becomes while the files of `l` are open. -/
def piece (expandFile : String → Ledgered Id (List String)) (l : Ledger) (number : Nat)
    (line : String) : Except Thrown (List String) :=
  match Directive.parseLine line (.count number) path with
  | .error e => .error e
  | .ok none => .ok [line]
  | .ok (some d) => do
    let target ← r.targetOf v d
    let l' ← l.enter target (some d.location)
    let lines ← (expandFile target).result l'
    pure (block debug d.rawPath lines)

variable {expandFile : String → Ledgered Id (List String)}

theorem piece_eq_ok_iff {l : Ledger} {number : Nat} {line : String} {here : List String} :
    piece v r debug path expandFile l number line = .ok here ↔
      (Directive.parseLine line (.count number) path = .ok none ∧ here = [line]) ∨
      ∃ d target l' lines, Directive.parseLine line (.count number) path = .ok (some d) ∧
        r.targetOf v d = .ok target ∧ l.enter target (some d.location) = .ok l' ∧
        (expandFile target).result l' = .ok lines ∧ here = block debug d.rawPath lines := by
  rw [piece]
  cases Directive.parseLine line (.count number) path with
  | error e => simp
  | ok found =>
    cases found with
    | none => simp [eq_comm]
    | some d =>
      cases ht : r.targetOf v d with
      | error e => simp [ht, bind, Except.bind]
      | ok target =>
        cases he : l.enter target (some d.location) with
        | error e => simp [ht, he, bind, Except.bind]
        | ok l' =>
          cases hlines : (expandFile target).result l' <;>
            simp [ht, he, hlines, bind, Except.bind, pure, Except.pure, eq_comm]

theorem piece_eq_error_iff {l : Ledger} {number : Nat} {line : String} {e : Thrown} :
    piece v r debug path expandFile l number line = .error e ↔
      Directive.parseLine line (.count number) path = .error e ∨
      ∃ d, Directive.parseLine line (.count number) path = .ok (some d) ∧
        (r.targetOf v d = .error e ∨ ∃ target, r.targetOf v d = .ok target ∧
          (l.enter target (some d.location) = .error e ∨
            ∃ l', l.enter target (some d.location) = .ok l' ∧
              (expandFile target).result l' = .error e)) := by
  rw [piece]
  cases Directive.parseLine line (.count number) path with
  | error e => simp
  | ok found =>
    cases found with
    | none => simp
    | some d =>
      cases ht : r.targetOf v d with
      | error e => simp [ht, bind, Except.bind]
      | ok target =>
        cases he : l.enter target (some d.location) with
        | error e => simp [ht, he, bind, Except.bind]
        | ok l' =>
          cases hlines : (expandFile target).result l' <;>
            simp [ht, he, hlines, bind, Except.bind, pure, Except.pure]

variable (hf : ∀ target, (expandFile target).Restores)
include hf

theorem restores_expandLines (number : Nat) (lines : List String) :
    (expandLines v r debug path expandFile number lines).Restores := by
  induction lines generalizing number with
  | nil => exact restores_pure []
  | cons line rest ih =>
    have hmore (here : List String) :
        (expandLines v r debug path expandFile (number + 1) rest >>= fun more =>
          pure (here ++ more)).Restores :=
      (ih (number + 1)).bind fun more => restores_pure _
    rw [expandLines]
    cases Directive.parseLine line (.count number) path with
    | error e => exact (restores_throw e).bind hmore
    | ok d =>
      cases d with
      | none => exact (restores_pure [line]).bind hmore
      | some d =>
        refine (restores_outside _).bind fun target => ?_
        refine (restores_withFile _ _ (hf target)).bind fun lines => ?_
        exact (restores_pure _).bind hmore

theorem result_expandLines_cons (l : Ledger) (number : Nat) (line : String) (rest : List String) :
    (expandLines v r debug path expandFile number (line :: rest)).result l =
      piece v r debug path expandFile l number line >>= fun here =>
        (expandLines v r debug path expandFile (number + 1) rest).result l >>= fun more =>
          pure (here ++ more) := by
  have hmore (here : List String) :
      (expandLines v r debug path expandFile (number + 1) rest >>= fun more =>
        pure (here ++ more)).result l =
      (expandLines v r debug path expandFile (number + 1) rest).result l >>= fun more =>
        pure (here ++ more) :=
    result_bind (restores_expandLines v r debug path hf (number + 1) rest) _ l
  rw [expandLines, piece]
  cases Directive.parseLine line (.count number) path with
  | error e => rfl
  | ok d =>
    cases d with
    | none => exact hmore [line]
    | some d =>
      have htarget : (outside (r.resolve v d)).result l = r.targetOf v d := rfl
      simp only [result_bind (restores_outside _), htarget,
        result_bind (restores_withFile _ _ (hf _)), result_withFile _ _ (hf _), hmore, bind_assoc,
        pure_bind]

/-- Lines are expanded to the pieces of all of them. -/
theorem result_expandLines_eq_ok_iff (l : Ledger) (number : Nat) (lines : List String) :
    (∃ out, (expandLines v r debug path expandFile number lines).result l = .ok out) ↔
      ∀ i line, lines[i]? = some line →
        ∃ here, piece v r debug path expandFile l (number + i) line = .ok here := by
  induction lines generalizing number with
  | nil => exact iff_of_true ⟨[], rfl⟩ (by simp)
  | cons line rest ih =>
    have hstep : (∃ out, (expandLines v r debug path expandFile number (line :: rest)).result l =
        .ok out) ↔ (∃ here, piece v r debug path expandFile l number line = .ok here) ∧
          ∃ more, (expandLines v r debug path expandFile (number + 1) rest).result l =
            .ok more := by
      rw [result_expandLines_cons v r debug path hf]
      cases piece v r debug path expandFile l number line <;>
        cases (expandLines v r debug path expandFile (number + 1) rest).result l <;>
        simp [bind, Except.bind, pure, Except.pure]
    rw [hstep, ih]
    constructor
    · rintro ⟨hhere, hmore⟩ i other hi
      cases i with
      | zero =>
        obtain rfl : line = other := by simpa using hi
        exact hhere
      | succ i =>
        have h := hmore i other (by simpa using hi)
        rwa [Nat.add_right_comm] at h
    · intro h
      refine ⟨h 0 line rfl, fun i other hi => ?_⟩
      have h' := h (i + 1) other (by simpa using hi)
      rwa [← Nat.add_assoc, Nat.add_right_comm] at h'

theorem result_expandLines_eq_error {l : Ledger} {number : Nat} {lines : List String} {e : Thrown}
    (h : (expandLines v r debug path expandFile number lines).result l = .error e) :
    ∃ i line, lines[i]? = some line ∧
      piece v r debug path expandFile l (number + i) line = .error e ∧
      ∀ j < i, ∀ other, lines[j]? = some other →
        ∃ here, piece v r debug path expandFile l (number + j) other = .ok here := by
  induction lines generalizing number with
  | nil => cases h
  | cons line rest ih =>
    rw [result_expandLines_cons v r debug path hf] at h
    cases hp : piece v r debug path expandFile l number line with
    | error e' =>
      rw [hp] at h
      cases h
      exact ⟨0, line, rfl, hp, by simp⟩
    | ok here =>
      rw [hp] at h
      cases hm : (expandLines v r debug path expandFile (number + 1) rest).result l with
      | ok more => simp [hm, bind, Except.bind, pure, Except.pure] at h
      | error e' =>
        simp only [hm, bind, Except.bind, Except.error.injEq] at h
        subst h
        obtain ⟨i, bad, hi, hbad, hbefore⟩ := ih hm
        refine ⟨i + 1, bad, by simpa using hi, ?_, fun j hj other hother => ?_⟩
        · rwa [← Nat.add_assoc, Nat.add_right_comm]
        · cases j with
          | zero =>
            obtain rfl : line = other := by simpa using hother
            exact ⟨here, hp⟩
          | succ j =>
            have hpiece := hbefore j (by omega) other (by simpa using hother)
            rwa [← Nat.add_assoc, Nat.add_right_comm]

omit hf

theorem run_expandWithin_succ {room : Nat}
    (hroom : ∀ target, (expandWithin v r debug room target).Restores) (l : Ledger) :
    (expandWithin v r debug (room + 1) path).run l =
      ((v.textOf path >>= fun text =>
        (expandLines v r debug path (expandWithin v r debug room) 1
          (Text.splitLines text)).result l).mapError (Thrown.attach l.stack), l) := by
  have hlines (text : String) := restores_expandLines v r debug path hroom 1 (Text.splitLines text)
  have hread := restores_outside (v.readSource path none)
  have htext : (outside (v.readSource path none)).result l = v.textOf path := rfl
  have hledger : (ledger : Ledgered Id Ledger).run l = (.ok l, l) := rfl
  simp only [expandWithin, run_bind, hledger, run_outside, run_outcome (hread.bind hlines),
    result_bind hread, htext]
  cases v.textOf path >>= fun text => (expandLines v r debug path (expandWithin v r debug room) 1
    (Text.splitLines text)).result l with
  | ok lines => rfl
  | error e => rfl

theorem restores_expandWithin (room : Nat) : (expandWithin v r debug room path).Restores := by
  induction room generalizing path with
  | zero => exact fun l => rfl
  | succ room ih =>
    intro l
    rw [run_expandWithin_succ v r debug path ih]

theorem result_expandWithin_succ (room : Nat) (l : Ledger) :
    (expandWithin v r debug (room + 1) path).result l =
      (v.textOf path >>= fun text =>
        (expandLines v r debug path (expandWithin v r debug room) 1
          (Text.splitLines text)).result l).mapError (Thrown.attach l.stack) := by
  rw [result, run_expandWithin_succ v r debug path fun p => restores_expandWithin v r debug p room]

theorem result_expandWithin_succ_eq_ok_iff {room : Nat} {l : Ledger} {lines : List String} :
    (expandWithin v r debug (room + 1) path).result l = .ok lines ↔
      ∃ text, v.textOf path = .ok text ∧
        (expandLines v r debug path (expandWithin v r debug room) 1
          (Text.splitLines text)).result l = .ok lines := by
  rw [result_expandWithin_succ, mapError_eq_ok_iff]
  exact bind_eq_ok_iff

theorem run_expand (l : Ledger) :
    (expand v r debug path).run l =
      (expandWithin v r debug (l.capacity + 1) path).run l := by
  have hledger : (ledger : Ledgered Id Ledger).run l = (.ok l, l) := rfl
  rw [expand, run_bind, hledger]

end Expansion

theorem Config.isPositiveInteger_of_forInput {cwd : Names} {o : Options} {input : String}
    {c : Config} (h : Config.forInput cwd o input = .ok c) :
    c.maxIncludeDepth.isPositiveInteger = true := by
  have hdepth {given : Value} {n : Number} (hn : depthOf given = .ok n) :
      n.isPositiveInteger = true := by
    simp only [depthOf, complain] at hn
    split at hn
    · rename_i k hk
      cases hn
      unfold positiveInteger? at hk
      split at hk
      · split at hk
        · cases hk
          assumption
        · cases hk
      · cases hk
    · cases hn
  simp only [forInput, ofOptions] at h
  cases hn : depthOf o.maxIncludeDepth with
  | error e =>
    rw [hn] at h
    cases h
  | ok n =>
    rw [hn] at h
    simp only [bind, Except.bind, complain, pure, Except.pure] at h
    split at h
    · cases h
    · split at h
      · cases h
      · cases h
        exact hdepth hn

theorem Config.ofOptions_eq_error {cwd : Names} {o : Options} {e : Thrown}
    (h : Config.ofOptions cwd o = .error e) :
    (∃ complaint, e = .ofProblem (.settings complaint)) ∨ ∃ plain, e = .error plain := by
  rcases bind_eq_error_iff.mp h with hdepth | ⟨depth, -, h⟩
  · simp only [depthOf, complain] at hdepth
    split at hdepth
    · cases hdepth
    · cases hdepth
      exact .inl ⟨_, rfl⟩
  · dsimp only at h
    split at h
    · cases h
      exact .inl ⟨_, rfl⟩
    · rcases bind_eq_error_iff.mp h with hpath | ⟨base, -, hok⟩
      · unfold pathOf at hpath
        split at hpath
        · cases hpath
        · cases hpath
          exact .inr ⟨_, rfl⟩
      · cases hok

theorem Config.forInput_eq_error {cwd : Names} {o : Options} {input : String} {e : Thrown}
    (h : Config.forInput cwd o input = .error e) :
    (∃ complaint, e = .ofProblem (.settings complaint)) ∨ e.IsForeign := by
  obtain hcomplaint | ⟨plain, rfl⟩ := ofOptions_eq_error h
  · exact .inl hcomplaint
  · exact .inr trivial

namespace Preprocessor

variable (v : Host Id) (o : Options) (input : String)

def fileOf : Except Thrown String :=
  v.canonicalOf (Path.render (Path.resolve v.cwd input)) none

def resolverOf (c : Config) : Except Thrown Resolver :=
  (Resolver.ofBase v (Path.render c.baseDirectory)).run

def outcomeOf : Except Thrown String := (process v o input).run

/-- The ledger on which a run expands its input. -/
def opening (c : Config) (file : String) : Ledger :=
  ({ limit := .number c.maxIncludeDepth } : Ledger).push file

@[simp] theorem opening_opened (c : Config) (file : String) : (opening c file).opened = [file] :=
  rfl

@[simp] theorem opening_stack (c : Config) (file : String) : (opening c file).stack = [file] := rfl

@[simp] theorem opening_depth (c : Config) (file : String) : (opening c file).depth = 1 := rfl

@[simp] theorem opening_capacity (c : Config) (file : String) :
    (opening c file).capacity = c.maxIncludeDepth.floorNat := rfl

theorem kept_opening {c : Config} (h : c.maxIncludeDepth.isPositiveInteger = true)
    (file : String) : (opening c file).Kept :=
  (Ledger.kept_new h).push (by simp) (Number.floorNat_pos h)

theorem enter_opening {c : Config} (h : c.maxIncludeDepth.isPositiveInteger = true)
    (file : String) :
    ({ limit := .number c.maxIncludeDepth } : Ledger).enter file none = .ok (opening c file) :=
  (Ledger.kept_new h).enter_eq_ok_iff.mpr ⟨by simp, Number.floorNat_pos h, rfl⟩

theorem run_expandInput (c : Config) (r : Resolver) (file : String) :
    (expandInput v c r file).run =
      (Ledgered.withFile file none (Expansion.expand v r c.marks file)).result
        { limit := .number c.maxIncludeDepth } := by
  unfold expandInput Ledgered.result
  dsimp only
  generalize (Ledgered.withFile file none (Expansion.expand v r c.marks file)).run _ = ended
  obtain ⟨lines | e, l⟩ := ended
  · rfl
  · rfl

theorem run_expandInput_eq {c : Config} (h : c.maxIncludeDepth.isPositiveInteger = true)
    (r : Resolver) (file : String) :
    (expandInput v c r file).run =
      (Expansion.expandWithin v r c.marks (c.maxIncludeDepth.floorNat + 1) file).result
        (opening c file) := by
  have hexpand : (Expansion.expand v r c.marks file).Restores := fun l => by
    rw [Expansion.run_expand]
    exact Expansion.restores_expandWithin v r c.marks file _ l
  rw [run_expandInput, Ledgered.result_withFile file none hexpand, enter_opening h]
  exact congrArg Prod.fst (Expansion.run_expand v r c.marks file (opening c file))

/-- A run with valid settings: the input and the base directory are made canonical, then the input
is expanded with itself open. -/
theorem outcomeOf_of_config {c : Config} (hc : Config.forInput v.cwd o input = .ok c) :
    outcomeOf v o input =
      (fileOf v input).bind fun file => (resolverOf v c).bind fun r =>
        ((Expansion.expandWithin v r c.marks (c.maxIncludeDepth.floorNat + 1) file).result
          (opening c file)).map Text.renderLines := by
  have hrun : outcomeOf v o input = (fileOf v input).bind fun file =>
      (resolverOf v c).bind fun r =>
        Except.map Text.renderLines (expandInput v c r file).run := by
    unfold outcomeOf process
    rw [hc]
    simp only [run_bind_eq]
    rfl
  simp only [hrun, run_expandInput_eq v (Config.isPositiveInteger_of_forInput hc)]

theorem outcomeOf_of_settings {e : Thrown} (hc : Config.forInput v.cwd o input = .error e) :
    outcomeOf v o input = .error e := by
  unfold outcomeOf process
  rw [hc]
  rfl

theorem outcomeOf_eq {c : Config} {file : String} {r : Resolver}
    (hc : Config.forInput v.cwd o input = .ok c) (hfile : fileOf v input = .ok file)
    (hr : resolverOf v c = .ok r) :
    outcomeOf v o input =
      ((Expansion.expandWithin v r c.marks (c.maxIncludeDepth.floorNat + 1) file).result
        (opening c file)).map Text.renderLines := by
  rw [outcomeOf_of_config v o input hc, hfile, hr]
  rfl

variable {v o input}

theorem outcomeOf_eq_error {e : Thrown} (h : outcomeOf v o input = .error e) :
    Config.forInput v.cwd o input = .error e ∨ fileOf v input = .error e ∨
    ∃ c, Config.forInput v.cwd o input = .ok c ∧
      (resolverOf v c = .error e ∨
        ∃ file r, fileOf v input = .ok file ∧ resolverOf v c = .ok r ∧
          (Expansion.expandWithin v r c.marks (c.maxIncludeDepth.floorNat + 1) file).result
            (opening c file) = .error e) := by
  cases hc : Config.forInput v.cwd o input with
  | error e' =>
    rw [outcomeOf_of_settings v o input hc] at h
    cases h
    exact .inl rfl
  | ok c =>
    rw [outcomeOf_of_config v o input hc] at h
    rcases bind_eq_error_iff.mp h with hfile | ⟨file, hfile, h⟩
    · exact .inr (.inl hfile)
    · refine .inr (.inr ⟨c, rfl, ?_⟩)
      rcases bind_eq_error_iff.mp h with hr | ⟨r, hr, h⟩
      · exact .inl hr
      · exact .inr ⟨file, r, hfile, hr, map_eq_error_iff.mp h⟩

theorem resolverOf_eq (c : Config) :
    resolverOf v c = (v.canonicalOf (Path.render (Path.resolve v.cwd
      (Path.render c.baseDirectory))) none).map Resolver.mk := by
  rw [resolverOf, Resolver.ofBase, run_bind_eq]
  rfl

theorem resolverOf_access (hv : v.RaisesForeign) {c : Config} {e : Thrown}
    (h : resolverOf v c = .error e) : e.IsAccess := by
  rw [resolverOf_eq, map_eq_error_iff] at h
  exact hv.canonicalOf h

end Preprocessor
end Inliner
