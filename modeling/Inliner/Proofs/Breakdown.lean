import Inliner.Proofs.IncludeGraph
import Inliner.Proofs.Tracing

/-! Where an expansion fails: in the innermost of the open files, which form a chain of the include
graph, and on the first line that cannot be dealt with. -/
namespace Inliner

theorem Thrown.attach_attach (e : Thrown) (a b : List String) :
    (e.attach a).attach b = e.attach a := by
  cases e with
  | failure f => exact congrArg Thrown.failure (f.attach_attach a b)
  | error e => rfl
  | value v => rfl

namespace IncludeGraph

open Ledgered Expansion

/-- Line `i` of a file, counted from zero, is a directive. -/
def DirectiveAt (v : Host Id) (path : String) (i : Nat) (d : Directive) : Prop :=
  ∃ line, LineOf v path i line ∧ Directive.parseLine line (.count (i + 1)) path = .ok (some d)

/-- Line `i` of a file is dealt with while the files of the ledger are open: it is ordinary, or its
target can be opened and expands. -/
def Passes (v : Host Id) (r : Resolver) (debug : Bool) (l : Ledger) (path : String) (i : Nat) :
    Prop :=
  ∀ line, LineOf v path i line →
    Directive.parseLine line (.count (i + 1)) path = .ok none ∨
    ∃ d target l' lines, Directive.parseLine line (.count (i + 1)) path = .ok (some d) ∧
      r.targetOf v d = .ok target ∧ l.enter target (some d.location) = .ok l' ∧
      (expand v r debug target).result l' = .ok lines

/-- What goes wrong on line `i` of a file itself while the files of the ledger are open. -/
inductive Stumbles (v : Host Id) (r : Resolver) (l : Ledger) (path : String) (i : Nat) :
    Thrown → Prop
  | malformed {e : Thrown} {line : String} (stands : LineOf v path i line)
      (parse : Directive.parseLine line (.count (i + 1)) path = .error e) :
      Stumbles v r l path i e
  | unresolved {e : Thrown} {d : Directive} (directive : DirectiveAt v path i d)
      (resolve : r.targetOf v d = .error e) : Stumbles v r l path i e
  | refused {e : Thrown} {d : Directive} {target : String} (directive : DirectiveAt v path i d)
      (resolve : r.targetOf v d = .ok target)
      (enter : l.enter target (some d.location) = .error e) : Stumbles v r l path i e

/-- What goes wrong first in a file itself while the files of the ledger are open. -/
inductive Breaks (v : Host Id) (r : Resolver) (debug : Bool) (l : Ledger) (path : String) :
    Thrown → Prop
  | unreadable {e : Thrown} (read : v.textOf path = .error e) : Breaks v r debug l path e
  | line {e : Thrown} {i : Nat} (earlier : ∀ j < i, Passes v r debug l path j)
      (stumbles : Stumbles v r l path i e) : Breaks v r debug l path e

/-- The way down from an open file to `last`, through the files `below`: on each of its steps the
lines before the directive that is followed are dealt with. -/
inductive Descends (v : Host Id) (r : Resolver) (debug : Bool) :
    (l : Ledger) → (path : String) → (below : List String) → (last : String) → Prop
  | here {l : Ledger} {path : String} : Descends v r debug l path [] path
  | down {l l' : Ledger} {path target last : String} {below : List String} {i : Nat}
      {d : Directive} (earlier : ∀ j < i, Passes v r debug l path j)
      (directive : DirectiveAt v path i d) (resolve : r.targetOf v d = .ok target)
      (enter : l.enter target (some d.location) = .ok l')
      (rest : Descends v r debug l' target below last) :
      Descends v r debug l path (target :: below) last

variable {v : Host Id} {r : Resolver} {debug : Bool}

theorem DirectiveAt.directiveOf {path : String} {i : Nat} {d : Directive}
    (h : DirectiveAt v path i d) : DirectiveOf v path d :=
  ⟨i, h⟩

namespace Descends

variable {l : Ledger} {path last : String} {below : List String}

theorem isChain (h : Descends v r debug l path below last) :
    (path :: below).IsChain (Includes v r) := by
  induction h with
  | @here l path => exact .singleton path
  | down earlier directive resolve enter rest ih =>
    exact .cons_cons ⟨_, directive.directiveOf, resolve⟩ ih

theorem getLast? (h : Descends v r debug l path below last) :
    (path :: below).getLast? = some last := by
  induction h with
  | here => rfl
  | down earlier directive resolve enter rest ih => rwa [List.getLast?_cons_cons]

theorem kept (h : Descends v r debug l path below last) (hl : l.Kept) :
    (l.pushAll below).Kept := by
  induction h with
  | here => exact hl
  | @down l l' path target last below i d earlier directive resolve enter rest ih =>
    have hbelow := ih (hl.enter enter)
    rwa [Ledger.enter_eq_ok enter] at hbelow

end Descends

theorem passes_of_piece {l : Ledger} (hl : l.Kept) {room : Nat}
    (hroom : l.capacity ≤ room + l.depth) {path : String} {i : Nat}
    (h : ∀ line, LineOf v path i line →
      ∃ here, piece v r debug path (expandWithin v r debug room) l (i + 1) line = .ok here) :
    Passes v r debug l path i := by
  intro line hline
  obtain ⟨here, hpiece⟩ := h line hline
  rcases (piece_eq_ok_iff v r debug path).mp hpiece with
    ⟨hparse, -⟩ | ⟨d, target, l', lines, hparse, hresolve, henter, hlines, -⟩
  · exact .inl hparse
  · have hl' := hl.enter henter
    obtain rfl := Ledger.enter_eq_ok henter
    have hinner : (l.push target).capacity < room + (l.push target).depth := by
      rw [Ledger.push_capacity, Ledger.push_depth]
      omega
    rw [result_expandWithin_eq hl' hinner] at hlines
    exact .inr ⟨d, target, _, lines, hparse, hresolve, henter, hlines⟩

/-- A failed expansion fails in a file at the end of a way that is open from end to end. -/
theorem exists_breaks {room : Nat} {l : Ledger} {path : String} {e : Thrown} (hl : l.Kept)
    (hroom : l.capacity < room + l.depth)
    (h : (expandWithin v r debug room path).result l = .error e) :
    ∃ below last cause, Descends v r debug l path below last ∧
      Breaks v r debug (l.pushAll below) last cause ∧
      e = cause.attach (l.pushAll below).stack := by
  induction room generalizing path l e with
  | zero =>
    have hdepth := hl.depth_le
    omega
  | succ room ih =>
    have hhere {cause : Thrown} (hb : Breaks v r debug l path cause) :
        ∃ below last cause', Descends v r debug l path below last ∧
          Breaks v r debug (l.pushAll below) last cause' ∧
          cause.attach l.stack = cause'.attach (l.pushAll below).stack :=
      ⟨[], path, cause, .here, hb, rfl⟩
    rw [result_expandWithin_succ] at h
    obtain ⟨cause, hcause, rfl⟩ := mapError_eq_error_iff.mp h
    rcases bind_eq_error_iff.mp hcause with hread | ⟨text, htext, hlines⟩
    · exact hhere (.unreadable hread)
    · obtain ⟨i, line, hi, hpiece, hbefore⟩ := result_expandLines_eq_error v r debug path
        (fun target => restores_expandWithin v r debug target room) hlines
      simp only [Nat.add_comm 1] at hpiece hbefore
      have hline : LineOf v path i line := ⟨text, htext, hi⟩
      have hearlier : ∀ j < i, Passes v r debug l path j := fun j hj =>
        passes_of_piece hl (by omega) fun other hother => hbefore j hj other (hother.of_text htext)
      rcases (piece_eq_error_iff v r debug path).mp hpiece with hparse | ⟨d, hd, hd'⟩
      · exact hhere (.line hearlier (.malformed hline hparse))
      · have hdirective : DirectiveAt v path i d := ⟨line, hline, hd⟩
        rcases hd' with hresolve | ⟨target, htarget, henter | ⟨l', henter, hbelow⟩⟩
        · exact hhere (.line hearlier (.unresolved hdirective hresolve))
        · exact hhere (.line hearlier (.refused hdirective htarget henter))
        · obtain rfl := Ledger.enter_eq_ok henter
          obtain ⟨below, last, cause', hdescends, hbreaks, rfl⟩ := ih (hl.enter henter)
            (by rw [Ledger.push_capacity, Ledger.push_depth]; omega) hbelow
          exact ⟨target :: below, last, cause',
            .down hearlier hdirective htarget henter hdescends, hbreaks,
            Thrown.attach_attach cause' _ _⟩

theorem Breaks.kind (hv : v.RaisesForeign) {l : Ledger} {path : String} {e : Thrown}
    (h : Breaks v r debug l path e) :
    e.IsAccess ∨ (∃ text location, e = .ofProblem (.invalidDirective text location)) ∨
    ∃ target location, Includes v r path target ∧ l.enter target location = .error e := by
  cases h with
  | unreadable hread => exact .inl (hv.textOf hread)
  | line _ hstumbles =>
    cases hstumbles with
    | malformed hline hparse =>
      unfold Directive.parseLine at hparse
      split at hparse
      · cases hparse
      · cases hparse
      · cases hparse
        exact .inr (.inl ⟨_, _, rfl⟩)
    | unresolved hdirective hresolve => exact .inl (Resolver.targetOf_access hv hresolve)
    | @refused d target hdirective hresolve henter =>
      exact .inr (.inr ⟨target, _, ⟨d, hdirective.directiveOf, hresolve⟩, henter⟩)

end IncludeGraph

namespace Preprocessor

open IncludeGraph

theorem nodup_of_kept_opening {c : Config} {file : String} {below : List String}
    (h : ((opening c file).pushAll below).Kept) : (file :: below).Nodup := by
  have hopened := h.nodup
  rw [Ledger.pushAll_opened, opening_opened, ← List.reverse_cons] at hopened
  exact List.nodup_reverse.mp hopened

/-- The expansion of an input fails in a file that a way through distinct open files leads to. -/
theorem exists_breaks_of_expansion {v : Host Id} {c : Config} {r : Resolver} {file : String}
    (hpos : c.maxIncludeDepth.isPositiveInteger = true) {e : Thrown}
    (h : (Expansion.expandWithin v r c.marks (c.maxIncludeDepth.floorNat + 1) file).result
      (opening c file) = .error e) :
    ∃ below last cause, Descends v r c.marks (opening c file) file below last ∧
      ((opening c file).pushAll below).Kept ∧
      Breaks v r c.marks ((opening c file).pushAll below) last cause ∧
      e = cause.attach (file :: below) := by
  have hkept := kept_opening hpos file
  obtain ⟨below, last, cause, hdescends, hbreaks, he⟩ :=
    exists_breaks hkept (by rw [opening_depth, opening_capacity]; omega) h
  refine ⟨below, last, cause, hdescends, hdescends.kept hkept, hbreaks, ?_⟩
  rw [he, Ledger.pushAll_stack]
  rfl

end Preprocessor
end Inliner
