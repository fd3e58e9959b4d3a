import Inliner.Ledger.Script
import Inliner.Proofs.Expansion

/-! What scripts do to a ledger. A callback may close more files than it opens, yet every ledger on
the way is in good order. -/
namespace Inliner.Ledger

mutual

/-- The ledgers that a step passes through, those inside its callback included; the one after the
step is the last of them. -/
def visitedBy (l : Ledger) : Step → List Ledger
  | .enter path location => [(runStep l (.enter path location)).2]
  | .leave => [(runStep l .leave).2]
  | .has _ => [l]
  | .withFile path location body ending =>
    match l.enter path location with
    | .error _ => [l]
    | .ok l' => l' :: visited l' body ++ [(runStep l (.withFile path location body ending)).2]

/-- The ledgers that a script passes through after the one it starts on. -/
def visited (l : Ledger) : List Step → List Ledger
  | [] => []
  | step :: rest => visitedBy l step ++ visited (runStep l step).2 rest

end

theorem runStep_mem_visitedBy (l : Ledger) (step : Step) :
    (runStep l step).2 ∈ visitedBy l step := by
  cases step with
  | enter path location => simp [visitedBy]
  | leave => simp [visitedBy]
  | has path => simp [visitedBy, runStep]
  | withFile path location body ending =>
    rw [visitedBy]
    cases he : l.enter path location with
    | error e => simp [runStep, he]
    | ok l' => simp

theorem runSteps_mem_visited (l : Ledger) (steps : List Step) :
    (runSteps l steps).2 ∈ l :: visited l steps := by
  induction steps generalizing l with
  | nil => simp [runSteps]
  | cons step rest ih =>
    have hstep := runStep_mem_visitedBy l step
    rw [runSteps, visited]
    rcases List.mem_cons.mp (ih (runStep l step).2) with h | h
    · exact List.mem_cons_of_mem _ (List.mem_append_left _ (h ▸ hstep))
    · exact List.mem_cons_of_mem _ (List.mem_append_right _ h)

def callback (body : List Step) (ending : Except Thrown Value) : Ledgered Id Value :=
  ExceptT.mk fun l => (ending, (runSteps l body).2)

theorem runStep_withFile (l : Ledger) (path : String) (location : Option Location)
    (body : List Step) (ending : Except Thrown Value) :
    (runStep l (.withFile path location body ending)).2 =
      ((Ledgered.withFile path location (callback body ending)).run l).2 := by
  rw [Ledgered.run_withFile_eq, runStep]
  cases l.enter path location with
  | error e => rfl
  | ok l' =>
    have hbody : (callback body ending).run l' = (ending, (runSteps l' body).2) := rfl
    dsimp only
    rw [hbody]
    obtain ⟨inner, after⟩ := runSteps l' body
    dsimp only
    cases after.leave with
    | error e => rfl
    | ok outer => cases ending <;> rfl

/-- A property of ledgers that lasts when a file is opened or closed. -/
structure Lasts (P : Ledger → Prop) : Prop where
  enter : ∀ {l l' : Ledger} {path location}, P l → l.enter path location = .ok l' → P l'
  leave : ∀ {l l' : Ledger}, P l → l.leave = .ok l' → P l'

theorem Lasts.run_withFile {P : Ledger → Prop} (hP : Lasts P) {α : Type} {path : String}
    {location : Option Location} {body : Ledgered Id α} (hbody : ∀ l, P l → P (body.run l).2)
    {l : Ledger} (h : P l) : P ((Ledgered.withFile path location body).run l).2 := by
  rw [Ledgered.run_withFile_eq]
  cases he : l.enter path location with
  | error e => exact h
  | ok l' =>
    have hinside := hbody l' (hP.enter h he)
    cases hout : (body.run l').2.leave with
    | error e => simpa [hout] using hinside
    | ok outer => simpa [hout] using hP.leave hinside hout

mutual

theorem Lasts.visitedBy {P : Ledger → Prop} (hP : Lasts P) {l : Ledger} (h : P l) :
    ∀ step : Step, ∀ l' ∈ l.visitedBy step, P l'
  | .enter path location => by
    cases he : l.enter path location with
    | error e => simpa [Ledger.visitedBy, runStep, he] using h
    | ok outer => simpa [Ledger.visitedBy, runStep, he] using hP.enter h he
  | .leave => by
    cases he : l.leave with
    | error e => simpa [Ledger.visitedBy, runStep, he] using h
    | ok outer => simpa [Ledger.visitedBy, runStep, he] using hP.leave h he
  | .has path => by simpa [Ledger.visitedBy] using h
  | .withFile path location body ending => by
    have hvisited (inside : Ledger) (hin : P inside) := hP.visited hin body
    have hbody (inside : Ledger) (hin : P inside) : P ((callback body ending).run inside).2 := by
      rcases List.mem_cons.mp (runSteps_mem_visited inside body) with heq | hmem
      · show P (runSteps inside body).2
        rw [heq]
        exact hin
      · exact hvisited inside hin _ hmem
    have hafter : P (runStep l (.withFile path location body ending)).2 := by
      rw [runStep_withFile]
      exact hP.run_withFile hbody h
    rw [Ledger.visitedBy]
    cases he : l.enter path location with
    | error e => simpa using h
    | ok l' =>
      have hin := hP.enter h he
      intro l'' hl''
      rcases List.mem_append.mp hl'' with hmem | hmem
      · rcases List.mem_cons.mp hmem with rfl | hmem
        · exact hin
        · exact hvisited l' hin l'' hmem
      · obtain rfl := List.mem_singleton.mp hmem
        exact hafter

/-- What opening and closing one file preserves holds of every ledger on the way. -/
theorem Lasts.visited {P : Ledger → Prop} (hP : Lasts P) {l : Ledger} (h : P l) :
    ∀ steps : List Step, ∀ l' ∈ l.visited steps, P l'
  | [] => by simp [Ledger.visited]
  | step :: rest => by
    intro l' hl'
    have hstep := hP.visitedBy h step
    rw [Ledger.visited] at hl'
    rcases List.mem_append.mp hl' with hmem | hmem
    · exact hstep l' hmem
    · exact hP.visited (hstep _ (runStep_mem_visitedBy l step)) rest l' hmem

end

theorem leave_eq_ok {l l' : Ledger} (h : l.leave = .ok l') :
    l'.limit = l.limit ∧ ∃ path, l.stack = l'.stack ++ [path] := by
  unfold leave at h
  split at h
  · cases h
  · rename_i path outer hopened
    cases h
    exact ⟨rfl, path, by simp [stack, hopened]⟩

theorem leave_eq_error_iff {l : Ledger} : (∃ e, l.leave = .error e) ↔ l.stack = [] := by
  rw [leave, stack]
  cases l.opened with
  | nil => simp
  | cons path outer => simp

theorem lasts_kept (limit : Value) : Lasts fun l => l.Kept ∧ l.limit = limit where
  enter {l l' path location} h he := by
    refine ⟨h.1.enter he, ?_⟩
    rw [enter_eq_ok he]
    exact h.2
  leave {l l'} h he := by
    refine ⟨h.1.leave he, ?_⟩
    rw [(leave_eq_ok he).1]
    exact h.2

namespace Kept

variable {l : Ledger} (hl : l.Kept)
include hl

theorem enter_eq_circular_iff {path : String} {location : Option Location} :
    l.enter path location = .error (.ofProblem (.circular (l.stack ++ [path]) location)) ↔
      path ∈ l.opened := by
  constructor
  · intro h
    by_contra hnew
    rw [hl.enter_of_not_mem hnew] at h
    split at h
    · cases h
    · cases h
  · intro h
    exact hl.enter_of_mem h location

theorem enter_eq_tooDeep_iff {path : String} {location : Option Location} :
    l.enter path location = .error (.ofProblem (.tooDeep path l.limit location)) ↔
      path ∉ l.opened ∧ l.depth = l.capacity := by
  have hdepth := hl.depth_le
  by_cases h : path ∈ l.opened
  · rw [hl.enter_of_mem h]
    simp [h, Thrown.ofProblem]
  · rw [hl.enter_of_not_mem h]
    by_cases hless : l.depth < l.capacity
    · simp [hless, h]
      omega
    · simp [hless, h]
      omega

end Kept

theorem run_update_of_refused {f : Ledger → Except Thrown Ledger} {l : Ledger} {e : Thrown}
    (h : ((Ledgered.update f : Ledgered Id Unit).run l).1 = .error e) :
    ((Ledgered.update f : Ledgered Id Unit).run l).2 = l := by
  cases hf : f l with
  | ok l' =>
    rw [Ledgered.run_update_of_ok hf] at h
    cases h
  | error e' => rw [Ledgered.run_update_of_error hf]

/-- Whatever a script does, each ledger on its way has every open file once on the stack and in the
set, and no more of them than the limit. On such a ledger a file is refused as circular exactly
if it is open, as too deep exactly if it is not and there is no room, and is opened otherwise;
closing is refused exactly if no file is open; and what is refused changes nothing. -/
theorem script_keeps_order {n : Number} (hn : n.isPositiveInteger = true) (steps : List Step)
    {l : Ledger} (h : l ∈ { limit := .number n } :: visited { limit := .number n } steps) :
    l.stack.Nodup ∧ (∀ path, l.has path = true ↔ path ∈ l.stack) ∧
    l.depth = l.stack.length ∧ l.depth ≤ n.floorNat ∧
    (∀ path location,
      (l.enter path location = .error (.ofProblem (.circular (l.stack ++ [path]) location)) ↔
        path ∈ l.stack) ∧
      (l.enter path location = .error (.ofProblem (.tooDeep path (.number n) location)) ↔
        path ∉ l.stack ∧ l.depth = n.floorNat) ∧
      (path ∉ l.stack → l.depth ≠ n.floorNat → l.enter path location = .ok (l.push path))) ∧
    ((∃ e, l.leave = .error e) ↔ l.stack = []) ∧
    (∀ l', l.leave = .ok l' → ∃ path, l.stack = l'.stack ++ [path]) ∧
    (∀ path location e, ((Ledgered.enter path location : Ledgered Id Unit).run l).1 = .error e →
      ((Ledgered.enter path location : Ledgered Id Unit).run l).2 = l) ∧
    ∀ e, ((Ledgered.leave : Ledgered Id Unit).run l).1 = .error e →
      ((Ledgered.leave : Ledgered Id Unit).run l).2 = l := by
  obtain ⟨hl, hlimit⟩ : l.Kept ∧ l.limit = .number n := by
    rcases List.mem_cons.mp h with rfl | hmem
    · exact ⟨kept_new hn, rfl⟩
    · exact (lasts_kept (.number n)).visited ⟨kept_new hn, rfl⟩ steps l hmem
  have hcapacity : l.capacity = n.floorNat := by
    rw [capacity, hlimit]
    rfl
  have hdepth := hl.depth_le
  rw [hcapacity] at hdepth
  refine ⟨List.nodup_reverse.mpr hl.nodup, fun path => ?_, l.length_stack.symm, hdepth,
    fun path location => ⟨?_, ?_, fun hnew hroom => ?_⟩, leave_eq_error_iff,
    fun l' hleave => (leave_eq_ok hleave).2, fun path location e hrefused => ?_,
    fun e hrefused => run_update_of_refused hrefused⟩
  · rw [mem_stack, hl.has_iff]
  · rw [mem_stack, hl.enter_eq_circular_iff]
  · rw [mem_stack, ← hlimit, hl.enter_eq_tooDeep_iff, hcapacity]
  · rw [mem_stack] at hnew
    exact hl.enter_eq_ok_iff.mpr ⟨hnew, by omega, rfl⟩
  · exact run_update_of_refused hrefused

/-- A callback closes the file that it was run for and another one, and opens a third in their
place; the `withFile` around it then closes that one. -/
def unbalancedScript : List Step :=
  [.enter "/a" none, .withFile "/b" none [.leave, .leave, .enter "/c" none] (.ok .absent)]

def displaced : Ledger := { limit := .number (.count 2), opened := ["/c"], held := ["/c"] }

theorem unbalanced_script_keeps_order :
    (Number.count 2).isPositiveInteger = true ∧
    displaced ∈ visited { limit := .number (.count 2) } unbalancedScript ∧
    displaced.stack.Nodup ∧ (∀ path, displaced.has path = true ↔ path ∈ displaced.stack) ∧
    displaced.depth ≤ 2 ∧
    displaced.enter "/c" none = .error (.ofProblem (.circular ["/c", "/c"] none)) ∧
    displaced.enter "/a" none = .ok (displaced.push "/a") := by
  have hn : (Number.count 2).isPositiveInteger = true := by decide
  have hvisited : displaced ∈ visited { limit := .number (.count 2) } unbalancedScript := by
    have hall : visited { limit := .number (.count 2) } unbalancedScript =
        [⟨.number (.count 2), ["/a"], ["/a"]⟩, ⟨.number (.count 2), ["/b", "/a"], ["/b", "/a"]⟩,
          ⟨.number (.count 2), ["/a"], ["/a"]⟩, ⟨.number (.count 2), [], []⟩, displaced,
          ⟨.number (.count 2), [], []⟩] := by cbv
    rw [hall]
    simp
  obtain ⟨hnodup, hhas, -, hdepth, hopens, -⟩ :=
    script_keeps_order hn unbalancedScript (List.mem_cons_of_mem _ hvisited)
  refine ⟨hn, hvisited, hnodup, hhas, hdepth, (hopens "/c" none).1.mpr (by decide), ?_⟩
  exact (hopens "/a" none).2.2 (by decide) (by decide)

end Inliner.Ledger
