import Inliner.Proofs.Restarts

/-! Trees that differ in the contents of files alone. Where a path leads does not depend on what is
written in any file. -/
namespace Inliner.FileTree

/-- The same places hold the same, but for the contents of regular files. -/
def Alike (t t' : FileTree) : Prop :=
  ∀ p, t'.get? p = t.get? p ∨
    ∃ content content', t.get? p = some (.file content) ∧ t'.get? p = some (.file content')

variable {t t' : FileTree} (h : t.Alike t')
include h

theorem Alike.walk_eq (creating : Bool) (follow : List String → List String → Except Errno Spot)
    (above segments : List String) :
    t'.walk creating follow above segments = t.walk creating follow above segments := by
  induction segments generalizing above with
  | nil => rfl
  | cons s rest ih =>
    simp only [walk]
    rcases h above.reverse with heq | ⟨content, content', hc, hc'⟩
    · rcases h (s :: above).reverse with hname | ⟨content, content', hc, hc'⟩
      · rw [heq, hname]
        simp only [ih]
      · rw [heq, hc, hc']
        simp only [ih]
    · rw [hc, hc']

theorem Alike.locateWithin_eq (creating : Bool) (links : Nat) (above segments : List String) :
    t'.locateWithin creating links above segments =
      t.locateWithin creating links above segments := by
  induction links generalizing above segments with
  | zero => exact h.walk_eq creating _ above segments
  | succ links ih =>
    have hfollow : t'.locateWithin creating links = t.locateWithin creating links := by
      funext above segments
      exact ih above segments
    simp only [locateWithin, hfollow]
    exact h.walk_eq creating _ above segments

theorem Alike.locate_eq (creating : Bool) (cwd : Names) (path : String) :
    t'.locate creating cwd path = t.locate creating cwd path := by
  simp only [locate, h.locateWithin_eq]

theorem Alike.stat (cwd : Names) (path : String) :
    t'.stat cwd path = t.stat cwd path ∨
      ∃ p content content', t.get? p = some (.file content) ∧ t'.get? p = some (.file content') ∧
        t.stat cwd path = .ok (p, .file content) ∧ t'.stat cwd path = .ok (p, .file content') := by
  unfold FileTree.stat
  rw [h.locate_eq]
  cases t.locate false cwd path with
  | error e => exact .inl rfl
  | ok spot =>
    cases spot with
    | vacant p => exact .inl rfl
    | found p =>
      rcases h p with heq | ⟨content, content', hc, hc'⟩
      · simp only [heq]
        exact .inl trivial
      · simp only [hc, hc']
        exact .inr ⟨p, content, content', hc, hc', rfl, rfl⟩

theorem Alike.descend_eq {restart restart' : Names → Except Stop Names}
    (hrestart : restart' = restart) (above : List String) (names : Names) :
    t'.descend restart' above names = t.descend restart above names := by
  subst hrestart
  induction names generalizing above with
  | nil => rfl
  | cons n rest ih =>
    have hdir : t'.isDirectory above.reverse = t.isDirectory above.reverse := by
      unfold isDirectory
      rcases h above.reverse with heq | ⟨content, content', hc, hc'⟩
      · rw [heq]
      · rw [hc, hc']
        rfl
    simp only [descend, hdir]
    rcases h (n :: above).reverse with heq | ⟨content, content', hc, hc'⟩
    · rw [heq]
      rcases h.stat [] (Path.render (n :: above).reverse) with hstat | ⟨p, _, _, -, -, hs, hs'⟩
      · simp only [hstat, ih]
      · simp only [hs, hs', ih]
    · simp only [hc, hc', ih]

theorem Alike.realpath_eq (cwd : Names) (path : String) :
    t'.realpath cwd path = t.realpath cwd path := by
  have hwithin (restarts : Nat) : t'.realpathWithin restarts = t.realpathWithin restarts := by
    induction restarts with
    | zero => rfl
    | succ restarts ih =>
      funext names
      exact h.descend_eq ih [] names
  exact realpath_congr fun k => by rw [hwithin]

theorem Alike.read_eq {cwd : Names} {path : String} {p : Names} {e : Entry}
    (hstat : t.stat cwd path = .ok (p, e)) (hp : t'.get? p = t.get? p) :
    t'.read cwd path = t.read cwd path := by
  unfold read
  rcases h.stat cwd path with heq | ⟨q, content, content', hc, hc', hs, hs'⟩
  · rw [heq]
  · rw [hs] at hstat
    cases hstat
    rw [hc, hc'] at hp
    cases hp
    rw [hs, hs']

end Inliner.FileTree
