import Inliner.Ledger

/-! Ledgers in good order: the set holds the files of the stack, none is open twice, and no more are
open than the limit allows. Opening and closing files keeps that order. -/
namespace Inliner

theorem Number.exceededBy_eq {n : Number} (h : n.isPositiveInteger = true) (k : Nat) :
    n.exceededBy k = decide (n.floorNat < k) := by
  cases n with
  | nan => simp [isPositiveInteger, isInteger] at h
  | infinite negative => simp [isPositiveInteger, isInteger] at h
  | finite negative m e =>
    cases negative with
    | true => simp [isPositiveInteger, isNegative] at h
    | false =>
      simp only [exceededBy, floorNat]
      split
      · simp only [decide_eq_decide]
        exact (Nat.div_lt_iff_lt_mul (Nat.two_pow_pos _)).symm
      · rfl

theorem Number.floorNat_pos {n : Number} (h : n.isPositiveInteger = true) : 0 < n.floorNat := by
  cases n with
  | nan => simp [isPositiveInteger, isInteger] at h
  | infinite negative => simp [isPositiveInteger, isInteger] at h
  | finite negative m e =>
    simp only [isPositiveInteger, isInteger, isZero, Bool.and_eq_true, Bool.or_eq_true,
      decide_eq_true_eq, beq_iff_eq, Bool.not_eq_true', beq_eq_false_iff_ne] at h
    obtain ⟨⟨hint, -⟩, hm⟩ := h
    simp only [floorNat]
    split
    · have hdvd : 2 ^ (-e).toNat ∣ m := Nat.dvd_of_mod_eq_zero (hint.resolve_left (by omega))
      exact Nat.div_pos (Nat.le_of_dvd (by omega) hdvd) (Nat.two_pow_pos _)
    · exact Nat.mul_pos (by omega) (Nat.two_pow_pos _)

namespace Ledger

def push (l : Ledger) (path : String) : Ledger :=
  { l with opened := path :: l.opened, held := path :: l.held }

@[simp] theorem push_opened (l : Ledger) (path : String) :
    (l.push path).opened = path :: l.opened := rfl
@[simp] theorem push_capacity (l : Ledger) (path : String) :
    (l.push path).capacity = l.capacity := rfl
@[simp] theorem push_depth (l : Ledger) (path : String) :
    (l.push path).depth = l.depth + 1 := rfl

theorem leave_push (l : Ledger) (path : String) : (l.push path).leave = .ok l := by
  simp [leave, push]

theorem enter_eq_ok {l l' : Ledger} {path : String} {location : Option Location}
    (h : l.enter path location = .ok l') : l' = l.push path := by
  unfold enter at h
  split at h
  · cases h
  · rename_i hhas
    have hnew : path ∉ l.held := fun hmem => hhas (has_iff.mpr hmem)
    split at h
    · cases h
    · rw [List.insert_of_not_mem hnew] at h
      cases h
      rfl

/-- The ledger with all of `paths` open as well, the last of them innermost. -/
def pushAll (l : Ledger) (paths : List String) : Ledger := paths.foldl push l

@[simp] theorem pushAll_opened (l : Ledger) (paths : List String) :
    (l.pushAll paths).opened = paths.reverse ++ l.opened := by
  induction paths generalizing l with
  | nil => rfl
  | cons path paths ih =>
    have h := ih (l.push path)
    simpa [pushAll] using h

@[simp] theorem pushAll_limit (l : Ledger) (paths : List String) :
    (l.pushAll paths).limit = l.limit := by
  induction paths generalizing l with
  | nil => rfl
  | cons path paths ih => exact ih (l.push path)

@[simp] theorem pushAll_capacity (l : Ledger) (paths : List String) :
    (l.pushAll paths).capacity = l.capacity := by
  rw [capacity, pushAll_limit, capacity]

@[simp] theorem pushAll_stack (l : Ledger) (paths : List String) :
    (l.pushAll paths).stack = l.stack ++ paths := by
  simp [stack]

/-- A ledger in good order. -/
structure Kept (l : Ledger) : Prop where
  positive : l.limit.toNumber.isPositiveInteger = true
  nodup : l.opened.Nodup
  /-- The set, written down in any order, is the stack in some order. -/
  agrees : l.held.Perm l.opened
  depth_le : l.depth ≤ l.capacity

theorem kept_new {n : Number} (h : n.isPositiveInteger = true) :
    ({ limit := .number n } : Ledger).Kept :=
  ⟨h, by simp, .refl [], Nat.zero_le _⟩

namespace Kept

variable {l l' : Ledger} (hl : l.Kept) {path : String}
include hl

theorem has_iff : l.has path = true ↔ path ∈ l.opened := by
  rw [Ledger.has_iff, hl.agrees.mem_iff]

theorem exceededBy_eq (k : Nat) :
    l.limit.toNumber.exceededBy k = decide (l.capacity < k) :=
  Number.exceededBy_eq hl.positive k

theorem enter_of_mem (h : path ∈ l.opened) (location : Option Location) :
    l.enter path location = .error (.ofProblem (.circular (l.stack ++ [path]) location)) := by
  rw [Ledger.enter, if_pos (hl.has_iff.mpr h)]

theorem enter_of_not_mem (h : path ∉ l.opened) (location : Option Location) :
    l.enter path location = if l.depth < l.capacity then .ok (l.push path)
      else .error (.ofProblem (.tooDeep path l.limit location)) := by
  have hhas : ¬l.has path = true := fun hhas => h (hl.has_iff.mp hhas)
  have hheld : path ∉ l.held := fun hmem => hhas (Ledger.has_iff.mpr hmem)
  rw [Ledger.enter, if_neg hhas, hl.exceededBy_eq, List.insert_of_not_mem hheld]
  by_cases hd : l.depth < l.capacity
  · rw [if_neg (by simp; omega), if_pos hd]
    rfl
  · rw [if_pos (by simp; omega), if_neg hd]

theorem enter_eq_ok_iff {location : Option Location} :
    l.enter path location = .ok l' ↔
      path ∉ l.opened ∧ l.depth < l.capacity ∧ l' = l.push path := by
  by_cases h : path ∈ l.opened
  · simp [hl.enter_of_mem h, h]
  · rw [hl.enter_of_not_mem h]
    split
    · simp [*, eq_comm]
    · simp [*]

theorem push (hnew : path ∉ l.opened) (hless : l.depth < l.capacity) : (l.push path).Kept where
  positive := hl.positive
  nodup := List.nodup_cons.mpr ⟨hnew, hl.nodup⟩
  agrees := hl.agrees.cons path
  depth_le := hless

theorem enter {location : Option Location} (h : l.enter path location = .ok l') : l'.Kept := by
  obtain ⟨hnew, hless, rfl⟩ := hl.enter_eq_ok_iff.mp h
  exact hl.push hnew hless

theorem leave (h : l.leave = .ok l') : l'.Kept := by
  cases hopened : l.opened with
  | nil => simp [Ledger.leave, hopened] at h
  | cons inner outer =>
    have hl' : l' = { l with opened := outer, held := l.held.erase inner } := by
      simpa [Ledger.leave, hopened, eq_comm] using h
    have hnodup := hl.nodup
    have hagrees := hl.agrees.erase inner
    have hdepth := hl.depth_le
    rw [hopened] at hnodup hagrees
    rw [List.erase_cons_head] at hagrees
    rw [depth, hopened, List.length_cons] at hdepth
    subst hl'
    exact ⟨hl.positive, (List.nodup_cons.mp hnodup).2, hagrees, Nat.le_of_succ_le hdepth⟩

end Kept
end Ledger
end Inliner
