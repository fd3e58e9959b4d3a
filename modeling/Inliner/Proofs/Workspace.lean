import Inliner.Command
import Inliner.Proofs.Steady
import Inliner.Proofs.Writing

/-! Calls of a command on a machine. Those that look at the tree answer alike on all machines akin
to one another; those that change it are known from the tree alone. -/
namespace Inliner

/-- The answers that a workspace gives in the state `s`; nothing is logged and nothing changes. -/
def Workspace.answersIn {σ : Type} (w : Workspace (StateM σ)) (s : σ) : Workspace Id where
  toHost := w.toHost.answersIn s
  probe path := ((w.probe path).run s).1
  probeFile path := ((w.probeFile path).run s).1
  makeDirectory path := ((w.makeDirectory path).run s).1
  load path := ((w.load path).run s).1
  store path content := ((w.store path content).run s).1

/-- The calls of `w` that change nothing come to the answers of `v`. -/
structure Workspace.Corresponds {m : Type → Type} [Monad m] (c : Correspondence m)
    (w : Workspace m) (v : Workspace Id) : Prop where
  host : w.toHost.Corresponds c (fun _ => True) v.toHost
  probe : ∀ path, c.Ends (w.probe path) (v.probe path)
  probeFile : ∀ path, c.Ends (w.probeFile path) (v.probeFile path)
  load : ∀ path, c.Ends (w.load path) (v.load path)

namespace Workspace.Corresponds

variable {m : Type → Type} [Monad m] {c : Correspondence m} {w : Workspace m} {v : Workspace Id}
  (hw : w.Corresponds c v)
include hw

theorem exists? (path : String) : c.Rel (w.exists? path) (v.exists? path) := by
  have hv : v.exists? path = match (v.probe path).run with
    | .ok () => true
    | .error _ => false := rfl
  rw [hv]
  refine c.sequence (hw.probe path) ?_
  cases (v.probe path).run with
  | ok _ => exact c.value true
  | error _ => exact c.value false

theorem isRegularFile (path : String) : c.Rel (w.isRegularFile path) (v.isRegularFile path) := by
  have hv : v.isRegularFile path = match (v.probeFile path).run with
    | .ok b => b
    | .error _ => false := rfl
  rw [hv]
  refine c.sequence (hw.probeFile path) ?_
  cases (v.probeFile path).run with
  | ok b => exact c.value b
  | error _ => exact c.value false

theorem readText (path : String) (encoding : Text.Encoding) :
    c.Ends (w.readText path encoding) (v.readText path encoding) :=
  (hw.load path).onPath.bind fun bytes _ => c.ends_pure (encoding.decode bytes)

theorem loadConfig [LawfulMonad m] (yaml : YamlReader) (input : String) (o : CommandOptions) :
    c.Ends (LoadedConfig.load yaml w input o) (LoadedConfig.load yaml v input o) := by
  have hlift {α : Type} (x : Except Thrown α) :
      c.Ends (LoadedConfig.lift x : ExceptT Thrown m α) (LoadedConfig.lift x) := c.value x
  have hcheck (path : String) (file : ProjectFile) (configFile : Option String) :
      c.Ends (do
        let options ← LoadedConfig.lift (o.merge v.cwd input path file)
        let config ← LoadedConfig.lift (Config.ofOptions v.cwd options)
        pure (⟨config, configFile, file.warnings⟩ : LoadedConfig) : ExceptT Thrown m LoadedConfig)
      (do
        let options ← LoadedConfig.lift (o.merge v.cwd input path file)
        let config ← LoadedConfig.lift (Config.ofOptions v.cwd options)
        pure ⟨config, configFile, file.warnings⟩) :=
    (hlift _).bind fun _ _ => (hlift _).bind fun _ _ => c.ends_pure _
  unfold LoadedConfig.load
  rw [show w.cwd = v.cwd from hw.host.cwd]
  refine (hlift _).bind fun path _ => ?_
  refine (Correspondence.ends_lift (hw.exists? path)).bind fun there _ => ?_
  cases there with
  | true =>
    refine (Correspondence.ends_lift (hw.host.log _)).bind fun _ _ => ?_
    refine (hw.readText path .utf8).bind fun content _ => ?_
    refine (hlift _).bind fun file _ => ?_
    exact (c.ends_pure _).bind fun found _ => hcheck path found.1 found.2
  | false =>
    dsimp only
    rw [if_neg Bool.false_ne_true, if_neg Bool.false_ne_true]
    split
    · exact (c.ends_throw _).bind fun found _ => hcheck path found.1 found.2
    · refine (Correspondence.ends_lift (hw.host.log _)).bind fun _ _ => ?_
      exact (c.ends_pure _).bind fun found _ => hcheck path found.1 found.2

end Workspace.Corresponds

section runs

variable {σ α β : Type} {s s' : σ}

theorem bind_run_eq_ok_iff {x : ExceptT Thrown (StateM σ) α}
    {f : α → ExceptT Thrown (StateM σ) β} {b : β} :
    (x >>= f).run s = (.ok b, s') ↔
      ∃ a s₁, x.run s = (.ok a, s₁) ∧ (f a).run s₁ = (.ok b, s') := by
  have hbind : (x >>= f).run s = ExceptT.bindCont f (x.run s).1 (x.run s).2 := rfl
  rw [hbind]
  rcases hx : x.run s with ⟨e | a, s₁⟩
  · constructor
    · intro h
      cases h
    · rintro ⟨a, s₂, h, -⟩
      cases h
  · constructor
    · intro h
      exact ⟨a, s₁, rfl, h⟩
    · rintro ⟨a', s₂, heq, h⟩
      cases heq
      exact h

theorem onPath_run (path : String) (location : Option Location) (x : ExceptT Thrown (StateM σ) α) :
    (onPath path location x).run s =
      ((x.run s).1.mapError fun e => .failure (e.onPath path location), (x.run s).2) := by
  have hcatch : onPath path location x =
      ExceptT.tryCatch x fun t => throw (.failure (t.onPath path location)) := rfl
  have hrun : (onPath path location x).run = x.run >>= fun r =>
      pure (r.mapError fun e => .failure (e.onPath path location)) := by
    rw [hcatch, ExceptT.tryCatch]
    show x.run >>= _ = _
    congr 1
    funext r
    cases r with
    | ok a => rfl
    | error e => rfl
  rw [hrun]
  rfl

theorem onPath_run_eq_ok_iff {path : String} {location : Option Location}
    {x : ExceptT Thrown (StateM σ) α} {a : α} :
    (onPath path location x).run s = (.ok a, s') ↔ x.run s = (.ok a, s') := by
  rw [onPath_run]
  rcases x.run s with ⟨e | b, s₁⟩
  · exact iff_of_false (fun h => by cases h) (fun h => by cases h)
  · exact Iff.rfl

theorem lift_run_eq_ok_iff {x : StateM σ α} {a : α} :
    (ExceptT.lift x : ExceptT Thrown (StateM σ) α).run s = (.ok a, s') ↔ x.run s = (a, s') := by
  show (Except.ok (x.run s).1, (x.run s).2) = _ ↔ _
  constructor
  · intro h
    exact Prod.ext (Except.ok.inj (Prod.mk.inj h).1) (Prod.mk.inj h).2
  · intro h
    rw [h]

end runs

namespace Machine

/-- Machines with the same tree, on which the same calls are refused and the same records are
written. -/
structure Akin (s s' : Machine) : Prop where
  tree : s'.tree = s.tree
  faults : s'.faults = s.faults
  threshold : s'.threshold = s.threshold

theorem Akin.refl (s : Machine) : s.Akin s := ⟨rfl, rfl, rfl⟩

theorem Akin.trans {s s' s'' : Machine} (h : s.Akin s') (h' : s'.Akin s'') : s.Akin s'' :=
  ⟨h'.tree.trans h.tree, h'.faults.trans h.faults, h'.threshold.trans h.threshold⟩

theorem Akin.symm {s s' : Machine} (h : s.Akin s') : s'.Akin s :=
  ⟨h.tree.symm, h.faults.symm, h.threshold.symm⟩

theorem Akin.steady {s s' : Machine} (h : s.Akin s') (hs : s.Steady) : s'.Steady :=
  ⟨by rw [h.faults]; exact hs.lasting, by rw [h.faults]; exact hs.foreign⟩

/-- What is done with a message touches no file. -/
def Quiet (tell : Message → Run Unit) : Prop :=
  ∀ message (s : Machine), s.Akin ((tell message).run s).2

theorem quiet_record : Quiet record := fun _ _ => ⟨rfl, rfl, rfl⟩

/-- Computations that come to the same value on every machine akin to `s`, and end on one. -/
def untouched (s : Machine) : Correspondence Run where
  Rel x a := ∀ s', s.Akin s' → ∃ s'', s.Akin s'' ∧ x.run s' = (a, s'')
  value a s' h := ⟨s', h, rfl⟩
  sequence {α β x a f b} hx hf s' h := by
    obtain ⟨s₁, h₁, hx⟩ := hx s' h
    obtain ⟨s₂, h₂, hf⟩ := hf s₁ h₁
    refine ⟨s₂, h₂, ?_⟩
    rw [StateT.run_bind, hx]
    exact hf

section untouched

variable {s : Machine}

theorem Akin.answer_eq {s' : Machine} (h : s.Akin s') {α : Type} (cwd : Names) (call : Call)
    (path : String) (action : FileTree → Except Thrown α) :
    s'.answer cwd call path action = s.answer cwd call path action := by
  rw [answer, answer, h.faults, h.tree]

theorem untouched_reading (hs : s.Steady) {α : Type} (cwd : Names) (call : Call) (path : String)
    (action : FileTree → Except Thrown α) :
    s.untouched.Ends (reading cwd call path action) ((reading cwd call path action).run s).1 := by
  intro s' h
  refine ⟨s', h, ?_⟩
  have hself := reading_run hs cwd call path action s.err
  have hother := reading_run (h.steady hs) cwd call path action s'.err
  rw [h.answer_eq] at hother
  rw [show (reading cwd call path action).run s = _ from hself]
  exact hother

theorem untouched_log (s : Machine) (r : Log.Record) : s.untouched.Rel (log r) () := by
  intro s' h
  obtain ⟨err, hrun⟩ := s'.settled_log r s'.err
  exact ⟨{ s' with err }, h.trans ⟨rfl, rfl, rfl⟩, hrun⟩

theorem untouched_tell {tell : Message → Run Unit} (htell : Quiet tell) (s : Machine)
    (message : Message) : s.untouched.Rel (tell message) () :=
  fun s' h => ⟨_, h.trans (htell message s'), rfl⟩

theorem untouched_of_fst {α : Type} {x : Run α} {a b : α} (h : s.untouched.Rel x a)
    (hb : (x.run s).1 = b) : s.untouched.Rel x b := by
  obtain ⟨s', -, hrun⟩ := h s (Akin.refl s)
  have hvalue : a = b := (congrArg Prod.fst hrun).symm.trans hb
  rw [← hvalue]
  exact h

theorem akin_of_untouched {α : Type} {x : Run α} {a b : α} (h : s.untouched.Rel x a)
    {s₁ s₂ : Machine} (h₁ : s.Akin s₁) (hrun : x.run s₁ = (b, s₂)) : s.Akin s₂ := by
  obtain ⟨s', h', hsame⟩ := h s₁ h₁
  have hstate : s' = s₂ := congrArg Prod.snd (hsame.symm.trans hrun)
  rw [← hstate]
  exact h'

abbrev workspaceView (s : Machine) (cwd : Names) : Workspace Id := (workspace cwd).answersIn s

theorem workspace_corresponds (hs : s.Steady) (cwd : Names) :
    (workspace cwd).Corresponds s.untouched (s.workspaceView cwd) where
  host :=
    { cwd := rfl
      log := s.untouched_log
      realpath := fun path => untouched_reading hs cwd _ path _
      isFile := fun path => untouched_reading hs cwd _ path _
      assertReadable := fun path => untouched_reading hs cwd _ path _
      read := fun path _ =>
        untouched_reading hs cwd .read path fun t => (t.read cwd path).map Text.decodeUtf8 }
  probe path := untouched_reading hs cwd _ path _
  probeFile path := untouched_reading hs cwd _ path _
  load path := untouched_reading hs cwd .load path fun t => t.read cwd path

def loaded (s : Machine) (yaml : YamlReader) (cwd : Names) (input : String) (o : CommandOptions) :
    Except Thrown LoadedConfig := ((LoadedConfig.load yaml (workspace cwd) input o).run s).1

theorem untouched_load (hs : s.Steady) {yaml : YamlReader} {cwd : Names} {input : String}
    {o : CommandOptions} {r : Except Thrown LoadedConfig} (h : s.loaded yaml cwd input o = r) :
    s.untouched.Ends (LoadedConfig.load yaml (workspace cwd) input o) r :=
  untouched_of_fst ((workspace_corresponds hs cwd).loadConfig yaml input o) h

theorem untouched_process (hs : s.Steady) {cwd : Names} {o : Options} {input : String}
    {r : Except Thrown String} (h : s.outcome cwd o input = r) :
    s.untouched.Ends (Preprocessor.process (host cwd) o input) r := by
  rw [← h, outcome_eq hs]
  exact (workspace_corresponds hs cwd).host.process (fun _ _ => trivial)
    (fun _ _ _ _ _ _ _ => trivial)

/-- Started on a machine akin to `s`, the first computation goes on as the second on another. -/
def Reaches {α : Type} (s : Machine) (x y : Run α) : Prop :=
  ∀ s', s.Akin s' → ∃ s'', s.Akin s'' ∧ x.run s' = y.run s''

theorem Reaches.trans {α : Type} {x y z : Run α} (h : s.Reaches x y) (h' : s.Reaches y z) :
    s.Reaches x z := by
  intro s₁ h₁
  obtain ⟨s₂, h₂, hxy⟩ := h s₁ h₁
  obtain ⟨s₃, h₃, hyz⟩ := h' s₂ h₂
  exact ⟨s₃, h₃, hxy.trans hyz⟩

theorem reaches_bind {α β : Type} {x : Run α} {a : α} (h : s.untouched.Rel x a)
    (f : α → Run β) : s.Reaches (x >>= f) (f a) := by
  intro s' hs'
  obtain ⟨s'', hs'', hrun⟩ := h s' hs'
  refine ⟨s'', hs'', ?_⟩
  rw [StateT.run_bind, hrun]
  rfl

theorem reaches_of_ok {α β : Type} {x : ExceptT Thrown Run α} {a : α}
    (h : s.untouched.Ends x (.ok a)) (f : α → ExceptT Thrown Run β) :
    s.Reaches (x >>= f).run (f a).run := reaches_bind h (ExceptT.bindCont f)

theorem reaches_of_error {α β : Type} {x : ExceptT Thrown Run α} {e : Thrown}
    (h : s.untouched.Ends x (.error e)) (f : α → ExceptT Thrown Run β) :
    s.Reaches (x >>= f).run (pure (.error e)) := reaches_bind h (ExceptT.bindCont f)

end untouched

/-- Why a call is not made, if it is not. -/
def refusal? (s : Machine) (cwd : Names) (call : Call) (path : String) : Option Thrown :=
  match Fault.take? call (Path.render (Path.resolve cwd path)) s.faults with
  | some (e, _) => some e
  | none => if path.toList.contains (Char.ofNat 0) then some (nulError path) else none

theorem answer_eq {s : Machine} {cwd : Names} {call : Call} {path : String} {α : Type}
    {action : FileTree → Except Thrown α} :
    s.answer cwd call path action = (s.refusal? cwd call path).elim (action s.tree) .error := by
  unfold answer refusal?
  cases Fault.take? call (Path.render (Path.resolve cwd path)) s.faults with
  | some found => rfl
  | none =>
    by_cases hnul : path.toList.contains (Char.ofNat 0) = true
    · simp only [hnul, if_true, Option.elim]
    · simp only [hnul, if_false, Bool.false_eq_true, Option.elim]

/-- A call that changes nothing gives what the tree has for it, exactly if it is not refused. -/
theorem answer_eq_ok_iff {s : Machine} {cwd : Names} {call : Call} {path : String} {α : Type}
    {action : FileTree → Except Thrown α} {a : α} :
    s.answer cwd call path action = .ok a ↔
      s.refusal? cwd call path = none ∧ action s.tree = .ok a := by
  rw [answer_eq]
  cases s.refusal? cwd call path <;> simp

theorem guarded_run {s : Machine} (hs : s.Steady) {α : Type} (cwd : Names) (call : Call)
    (path : String) (action : FileTree → Except Thrown α × FileTree) :
    (guarded cwd call path action).run s = match s.refusal? cwd call path with
      | some e => (.error e, s)
      | none => ((action s.tree).1, { s with tree := (action s.tree).2 }) := by
  show guarded cwd call path action s = _
  unfold guarded refusal?
  cases heq : Fault.take? call (Path.render (Path.resolve cwd path)) s.faults with
  | some found =>
    obtain ⟨e, rest⟩ := found
    obtain ⟨rfl, -⟩ := take?_of_lasting hs.lasting heq
    simp only [ExceptT.mk, heq]
  | none =>
    by_cases hnul : path.toList.contains (Char.ofNat 0) = true
    · simp only [ExceptT.mk, heq, hnul, if_true]
    · simp only [ExceptT.mk, heq, hnul, if_false, Bool.false_eq_true]

theorem guarded_eq_ok_iff {s : Machine} (hs : s.Steady) {α : Type} {cwd : Names} {call : Call}
    {path : String} {action : FileTree → Except Thrown α × FileTree} {a : α} {s' : Machine} :
    (guarded cwd call path action).run s = (.ok a, s') ↔
      s.refusal? cwd call path = none ∧
        ∃ t, action s.tree = (.ok a, t) ∧ s' = { s with tree := t } := by
  rw [guarded_run hs]
  cases s.refusal? cwd call path with
  | some e => exact iff_of_false (fun h => by cases h) (by simp)
  | none =>
    constructor
    · intro h
      have hresult := congrArg Prod.fst h
      have hstate := congrArg Prod.snd h
      exact ⟨rfl, _, Prod.ext hresult rfl, hstate.symm⟩
    · rintro ⟨-, t, haction, rfl⟩
      rw [haction]

section steps

variable {α β : Type} {s s' : Machine}

theorem makeDirectory_eq_ok_iff (hs : s.Steady) {cwd : Names} {path : String} :
    ((workspace cwd).makeDirectory path).run s = (.ok (), s') ↔
      s.refusal? cwd .makeDirectory path = none ∧
        ∃ t, s.tree.makeDirectory cwd path = (.ok (), t) ∧ s' = { s with tree := t } := by
  dsimp only [workspace]
  exact guarded_eq_ok_iff hs

theorem store_eq_ok_iff (hs : s.Steady) {cwd : Names} {path : String} {content : Text.Bytes} :
    ((workspace cwd).store path content).run s = (.ok (), s') ↔
      s.refusal? cwd .store path = none ∧
        ∃ t, s.tree.write cwd path content = .ok t ∧ s' = { s with tree := t } := by
  dsimp only [workspace]
  rw [guarded_eq_ok_iff hs]
  refine and_congr_right fun _ => exists_congr fun t => and_congr_left fun _ => ?_
  cases s.tree.write cwd path content with
  | ok t' => simp
  | error e => simp

/-- What it takes to write a text: that the calls are made, a directory is there or can be made, and
the file can be written in it. -/
structure Writes (s : Machine) (cwd : Names) (path text : String) (t : FileTree) : Prop where
  makes : s.refusal? cwd .makeDirectory (Path.parent path) = none
  stores : s.refusal? cwd .store path = none
  tree : ∃ t₁, s.tree.makeDirectory cwd (Path.parent path) = (.ok (), t₁) ∧
    t₁.write cwd path (Text.encodeUtf8 text) = .ok t

theorem Akin.refusal_eq (h : s.Akin s') (cwd : Names) (call : Call) (path : String) :
    s'.refusal? cwd call path = s.refusal? cwd call path := by
  rw [refusal?, refusal?, h.faults]

theorem exists_log (s : Machine) (r : Log.Record) :
    ∃ s', s.Akin s' ∧ (log r).run s = ((), s') := untouched_log s r s (Akin.refl s)

theorem akin_of_log {r : Log.Record} (h : (log r).run s = ((), s')) : s.Akin s' :=
  akin_of_untouched (s.untouched_log r) (Akin.refl s) h

theorem writes_of_run (hs : s.Steady) {cwd : Names} {path text : String}
    (h : ((workspace cwd).writeText path text .utf8).run s = (.ok (), s')) :
    s.Writes cwd path text s'.tree ∧ { s with tree := s'.tree }.Akin s' := by
  obtain ⟨⟨⟩, s₂, hdir, h⟩ := bind_run_eq_ok_iff.mp h
  obtain ⟨⟨⟩, s₁, hmake, hlog⟩ := bind_run_eq_ok_iff.mp hdir
  obtain ⟨⟨⟩, s₃, hstore, hlog'⟩ := bind_run_eq_ok_iff.mp h
  obtain ⟨hmakes, t₁, hmade, rfl⟩ := (makeDirectory_eq_ok_iff hs).mp (onPath_run_eq_ok_iff.mp hmake)
  have h₂ := akin_of_log (lift_run_eq_ok_iff.mp hlog)
  obtain ⟨hstores, t, hwritten, rfl⟩ :=
    (store_eq_ok_iff (h₂.steady (hs.withTree t₁))).mp (onPath_run_eq_ok_iff.mp hstore)
  have h₃ := akin_of_log (lift_run_eq_ok_iff.mp hlog')
  rw [h₂.refusal_eq] at hstores
  rw [h₂.tree] at hwritten
  refine ⟨⟨hmakes, hstores, t₁, hmade, ?_⟩, rfl, h₃.faults.trans h₂.faults,
    h₃.threshold.trans h₂.threshold⟩
  rw [h₃.tree]
  exact hwritten

theorem exists_run_of_writes (hs : s.Steady) {cwd : Names} {path text : String} {t : FileTree}
    (h : s.Writes cwd path text t) :
    ∃ s', ((workspace cwd).writeText path text .utf8).run s = (.ok (), s') ∧
      { s with tree := t }.Akin s' := by
  obtain ⟨t₁, hmade, hwritten⟩ := h.tree
  have hmake := (makeDirectory_eq_ok_iff hs).mpr ⟨h.makes, t₁, hmade, rfl⟩
  obtain ⟨s₂, h₂, hlog⟩ := exists_log { s with tree := t₁ }
    (.debug ("Directory located or created: " ++ Path.parent path))
  have hstores := h.stores
  rw [← show s₂.refusal? cwd .store path = s.refusal? cwd .store path from
    h₂.refusal_eq cwd .store path] at hstores
  have hstore := (store_eq_ok_iff (h₂.steady (hs.withTree t₁))).mpr
    ⟨hstores, t, by rw [h₂.tree]; exact hwritten, rfl⟩
  obtain ⟨s₄, h₄, hlog'⟩ := exists_log { s₂ with tree := t } (.debug ("Wrote file: " ++ path))
  refine ⟨s₄, ?_, h₄.tree, h₄.faults.trans h₂.faults, h₄.threshold.trans h₂.threshold⟩
  refine bind_run_eq_ok_iff.mpr ⟨(), s₂, ?_, ?_⟩
  · exact bind_run_eq_ok_iff.mpr
      ⟨(), _, onPath_run_eq_ok_iff.mpr hmake, lift_run_eq_ok_iff.mpr hlog⟩
  · exact bind_run_eq_ok_iff.mpr
      ⟨(), _, onPath_run_eq_ok_iff.mpr hstore, lift_run_eq_ok_iff.mpr hlog'⟩

end steps

end Machine
end Inliner
