import Inliner.Path
import Inliner.Text.Encoding

/-! A tree of files, directories and symbolic links, as a list of absolute paths with what stands
there. `get?` is the view through which everything else looks at a tree. -/
namespace Inliner

inductive Entry where
  | file (content : Text.Bytes)
  | link (target : String)
  | directory
  deriving DecidableEq, Repr, Inhabited

structure FileTree where
  entries : List (Names × Entry) := []
  deriving DecidableEq, Repr, Inhabited

namespace FileTree

/-- The root is always a directory. -/
def get? (t : FileTree) (path : Names) : Option Entry :=
  if path = [] then some .directory else t.entries.lookup path

def isDirectory (t : FileTree) (path : Names) : Bool := t.get? path == some .directory

def replace (path : Names) (e : Entry) : List (Names × Entry) → List (Names × Entry)
  | [] => [(path, e)]
  | (p, old) :: rest => if p = path then (p, e) :: rest else (p, old) :: replace path e rest

def set (t : FileTree) (path : Names) (e : Entry) : FileTree :=
  ⟨replace path e t.entries⟩

/-- Remove what stands at `path` and all below it; a link goes, its target stays. -/
def erase (t : FileTree) (path : Names) : FileTree :=
  ⟨t.entries.filter fun x => !path.isPrefixOf x.1⟩

def listing (t : FileTree) : List (Names × Entry) :=
  t.entries.mergeSort fun a b => Text.namesLe a.1 b.1

@[simp] theorem get?_nil (t : FileTree) : t.get? [] = some .directory := rfl

theorem lookup_replace (path p : Names) (e : Entry) (entries : List (Names × Entry)) :
    (replace path e entries).lookup p = if p = path then some e else entries.lookup p := by
  induction entries with
  | nil => by_cases h : p = path <;> simp [replace, List.lookup_cons, h, beq_eq_false_iff_ne.2]
  | cons x rest ih =>
    obtain ⟨q, old⟩ := x
    by_cases hq : q = path
    · subst hq
      by_cases h : p = q <;> simp [replace, List.lookup_cons, h, beq_eq_false_iff_ne.2]
    · by_cases h : p = q
      · subst h; simp [replace, hq]
      · simp [replace, hq, List.lookup_cons, beq_eq_false_iff_ne.2 h, ih]

theorem get?_set (t : FileTree) {path : Names} (h : path ≠ []) (p : Names) (e : Entry) :
    (t.set path e).get? p = if p = path then some e else t.get? p := by
  unfold get? set
  by_cases hp : p = []
  · subst hp; simp [Ne.symm h]
  · simp [hp, lookup_replace]

end FileTree
end Inliner
