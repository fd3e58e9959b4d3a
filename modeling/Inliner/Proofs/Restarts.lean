import Inliner.FileTree.Lookup
import Mathlib

/-! Making a path canonical ends within the restarts that it is given, or never: links are replaced
one below the other no deeper than their number. -/
namespace Inliner

theorem Path.length_walk_le (above segs : List String) :
    (Path.walk above segs).length ≤ above.length + segs.length := by
  induction segs generalizing above with
  | nil => simp [Path.walk]
  | cons s rest ih =>
    rw [Path.walk, List.length_cons]
    split
    · exact (ih above).trans (by omega)
    · split
      · exact (ih above.tail).trans (by rw [List.length_tail]; omega)
      · exact (ih (s :: above)).trans (by rw [List.length_cons]; omega)

theorem Path.length_resolve_le (base : Names) (path : String) :
    (Path.resolve base path).length ≤ base.length + (Path.segments path).length := by
  rw [Path.resolve, List.length_reverse]
  refine (Path.length_walk_le _ _).trans ?_
  split
  · simp
  · simp

namespace FileTree

variable {t : FileTree} {above : List String} {names a b : Names} {out : Except Stop Names}
  {stop : Stop} {k k' : Nat}

/-- The path that takes the place of a link. -/
def replacement (l : Names × String) : Names := Path.resolve l.1.dropLast l.2

theorem mem_links {p : Names} {target : String} (h : t.get? p = some (.link target)) :
    (p, target) ∈ t.links := by
  have hne : p ≠ [] := by
    rintro rfl
    cases h
  rw [get?, if_neg hne] at h
  obtain ⟨before, after, hentries, -⟩ := List.lookup_eq_some_iff.mp h
  exact List.mem_filterMap.mpr ⟨(p, .link target), by simp [hentries], rfl⟩

theorem descend_cases (t : FileTree) (above : List String) (n : String) :
    (∃ stop ≠ Stop.endless, ∀ restart rest, descend t restart above (n :: rest) = .error stop) ∨
    (∀ restart rest, descend t restart above (n :: rest) = descend t restart (n :: above) rest) ∨
    ∃ l ∈ t.links, (∃ found, t.stat [] (Path.render (n :: above).reverse) = .ok found) ∧
      ∀ restart rest, descend t restart above (n :: rest) = restart (replacement l ++ rest) := by
  simp only [descend]
  by_cases hlong : pathTooLong (Path.render (n :: above).reverse) = true
  · exact .inl ⟨.failed .nameTooLong _ _, by simp, fun _ _ => if_pos hlong⟩
  by_cases hdir : (!t.isDirectory above.reverse) = true
  · exact .inl ⟨.failed .notDirectory _ _, by simp, fun _ _ => by rw [if_neg hlong, if_pos hdir]⟩
  by_cases hname : tooLong n = true
  · exact .inl ⟨.failed .nameTooLong _ _, by simp, fun _ _ => by
      rw [if_neg hlong, if_neg hdir, if_pos hname]⟩
  simp only [hlong, hdir, hname, if_false, Bool.false_eq_true]
  cases hget : t.get? (n :: above).reverse with
  | none => exact .inl ⟨.failed .missing _ _, by simp, fun _ _ => rfl⟩
  | some e =>
    cases e with
    | file content => exact .inr (.inl fun _ _ => rfl)
    | directory => exact .inr (.inl fun _ _ => rfl)
    | link target =>
      cases hstat : t.stat [] (Path.render (n :: above).reverse) with
      | error e => exact .inl ⟨.failed e _ _, by simp, fun _ _ => rfl⟩
      | ok found =>
        refine .inr (.inr ⟨_, mem_links hget, ⟨found, rfl⟩, fun restart rest => ?_⟩)
        rw [replacement, List.reverse_cons, List.dropLast_concat]

theorem descend_mono {restart restart' : Names → Except Stop Names}
    (hrestart : ∀ names, restart names ≠ .error .endless → restart' names = restart names)
    (h : descend t restart above names ≠ .error .endless) :
    descend t restart' above names = descend t restart above names := by
  induction names generalizing above with
  | nil => rfl
  | cons n rest ih =>
    rcases descend_cases t above n with ⟨stop, -, hstep⟩ | hstep | ⟨l, -, -, hstep⟩
    · rw [hstep, hstep]
    · rw [hstep] at h ⊢
      rw [hstep]
      exact ih h
    · rw [hstep] at h ⊢
      rw [hstep]
      exact hrestart _ h

/-- More restarts change no answer. -/
theorem realpathWithin_mono (hk : k ≤ k') (h : realpathWithin t k names ≠ .error .endless) :
    realpathWithin t k' names = realpathWithin t k names := by
  induction k generalizing k' names with
  | zero => exact absurd rfl h
  | succ k ih =>
    obtain ⟨k', rfl⟩ := Nat.exists_eq_add_of_le' (Nat.one_le_of_lt hk)
    exact descend_mono (fun _ => ih (Nat.le_of_succ_le_succ hk)) h

/-- Within `k` restarts, the descent along `names` comes to the end `out`. -/
def Ends (t : FileTree) (k : Nat) (above : List String) (names : Names)
    (out : Except Stop Names) : Prop :=
  descend t (realpathWithin t k) above names = out ∧ out ≠ .error .endless

theorem realpathWithin_succ_eq_iff (hout : out ≠ .error .endless) :
    realpathWithin t (k + 1) names = out ↔ Ends t k [] names out :=
  ⟨fun h => ⟨h, hout⟩, fun h => h.1⟩

namespace Ends

theorem mono (h : Ends t k above names out) (hk : k ≤ k') : Ends t k' above names out := by
  obtain ⟨rfl, hout⟩ := h
  exact ⟨descend_mono (fun _ => realpathWithin_mono hk) hout, hout⟩

theorem restart {l : Names × String} {n : String} {rest : Names}
    (hstep : ∀ restart rest,
      descend t restart above (n :: rest) = restart (replacement l ++ rest)) :
    Ends t k above (n :: rest) out ↔ ∃ j, k = j + 1 ∧ Ends t j [] (replacement l ++ rest) out := by
  rw [Ends, hstep]
  cases k with
  | zero =>
    simp only [realpathWithin, Nat.right_eq_add, Nat.add_eq_zero_iff, one_ne_zero, and_false,
      false_and, exists_false, iff_false, not_and]
    exact fun h hout => hout h.symm
  | succ k =>
    constructor
    · exact fun h => ⟨k, rfl, h⟩
    · rintro ⟨j, hj, h⟩
      obtain rfl := Nat.succ.inj hj
      exact h

theorem append_error (h : Ends t k above a (.error stop)) (b : Names) :
    Ends t k above (a ++ b) (.error stop) := by
  induction k using Nat.strong_induction_on generalizing above a with
  | _ k ihk =>
    induction a generalizing above with
    | nil => cases h.1
    | cons n rest ih =>
      rw [List.cons_append]
      rcases descend_cases t above n with ⟨stop', -, hstep⟩ | hstep | ⟨l, -, -, hstep⟩
      · exact ⟨(hstep _ _).trans ((hstep _ _).symm.trans h.1), h.2⟩
      · exact ⟨(hstep _ _).trans (ih ⟨(hstep _ _).symm.trans h.1, h.2⟩).1, h.2⟩
      · obtain ⟨j, rfl, hj⟩ := (restart hstep).mp h
        refine (restart hstep).mpr ⟨j, rfl, ?_⟩
        rw [← List.append_assoc]
        exact ihk j j.lt_succ_self hj

theorem append {p : Names} (ha : Ends t k above a (.ok p)) (hb : Ends t k' p.reverse b out) :
    Ends t (k + k') above (a ++ b) out := by
  induction k using Nat.strong_induction_on generalizing above a with
  | _ k ihk =>
    induction a generalizing above with
    | nil =>
      obtain rfl : above.reverse = p := Except.ok.inj ha.1
      rw [List.reverse_reverse] at hb
      exact hb.mono (Nat.le_add_left _ _)
    | cons n rest ih =>
      rw [List.cons_append]
      rcases descend_cases t above n with ⟨stop', -, hstep⟩ | hstep | ⟨l, -, -, hstep⟩
      · cases (hstep _ _).symm.trans ha.1
      · exact ⟨(hstep _ _).trans (ih ⟨(hstep _ _).symm.trans ha.1, ha.2⟩).1, hb.2⟩
      · obtain ⟨j, rfl, hj⟩ := (restart hstep).mp ha
        refine (restart hstep).mpr ⟨j + k', by omega, ?_⟩
        rw [← List.append_assoc]
        exact ihk j j.lt_succ_self hj

theorem of_append (h : Ends t k above (a ++ b) out) :
    (∃ stop, out = .error stop ∧ Ends t k above a out) ∨
      ∃ p, Ends t k above a (.ok p) ∧ Ends t k p.reverse b out := by
  induction k using Nat.strong_induction_on generalizing above a with
  | _ k ihk =>
    induction a generalizing above with
    | nil =>
      refine .inr ⟨above.reverse, ⟨rfl, by simp⟩, ?_⟩
      rwa [List.reverse_reverse]
    | cons n rest ih =>
      rw [List.cons_append] at h
      rcases descend_cases t above n with ⟨stop, -, hstep⟩ | hstep | ⟨l, -, -, hstep⟩
      · exact .inl ⟨stop, h.1.symm.trans (hstep _ _), (hstep _ _).trans ((hstep _ _).symm.trans h.1),
          h.2⟩
      · rcases ih ⟨(hstep _ _).symm.trans h.1, h.2⟩ with ⟨stop, hstop, hends⟩ | ⟨p, hends, hrest⟩
        · exact .inl ⟨stop, hstop, (hstep _ _).trans hends.1, hends.2⟩
        · exact .inr ⟨p, ⟨(hstep _ _).trans hends.1, hends.2⟩, hrest⟩
      · obtain ⟨j, rfl, hj⟩ := (restart hstep).mp h
        rw [← List.append_assoc] at hj
        rcases ihk j j.lt_succ_self hj with ⟨stop, hstop, hends⟩ | ⟨p, hends, hrest⟩
        · exact .inl ⟨stop, hstop, (restart hstep).mpr ⟨j, rfl, hends⟩⟩
        · exact .inr ⟨p, (restart hstep).mpr ⟨j, rfl, hends⟩, hrest.mono j.le_succ⟩

end Ends

theorem length_replacement_le {l : Names × String} (h : l ∈ t.links) :
    (replacement l).length ≤ t.linkSpan := by
  refine (Path.length_resolve_le _ _).trans ?_
  have hspan : t.linkSpan = (t.links.map fun l => l.1.length + (Path.segments l.2).length).sum := by
    rw [linkSpan, List.sum_eq_foldr, List.foldr_map]
  have hmem : l.1.length + (Path.segments l.2).length ≤ t.linkSpan := hspan ▸
    List.single_le_sum (fun _ _ => Nat.zero_le _) _ (List.mem_map_of_mem h)
  rw [List.length_dropLast]
  omega

/-- The links whose replacements are made canonical within `k` restarts. -/
def settledLinks (t : FileTree) (k : Nat) : Finset (Names × String) :=
  t.links.toFinset.filter fun l => realpathWithin t k (replacement l) ≠ .error .endless

theorem card_settledLinks_le (t : FileTree) (k : Nat) : (t.settledLinks k).card ≤ t.links.length :=
  (Finset.card_filter_le _ _).trans (List.toFinset_card_le _)

theorem card_settledLinks_lt {l : Names × String} (hl : l ∈ t.links) (hk : k ≤ k')
    (hbefore : realpathWithin t k (replacement l) = .error .endless)
    (hafter : realpathWithin t k' (replacement l) ≠ .error .endless) :
    (t.settledLinks k).card < (t.settledLinks k').card := by
  refine Finset.card_lt_card (Finset.ssubset_iff_of_subset ?_ |>.mpr ⟨l, ?_, ?_⟩)
  · intro x hx
    obtain ⟨hmem, hsettled⟩ := Finset.mem_filter.mp hx
    exact Finset.mem_filter.mpr ⟨hmem, by rwa [realpathWithin_mono hk hsettled]⟩
  · exact Finset.mem_filter.mpr ⟨List.mem_toFinset.mpr hl, hafter⟩
  · exact fun hmem => (Finset.mem_filter.mp hmem).2 hbefore

theorem restartsFor_mono {i j : Nat} (h : i ≤ j) : t.restartsFor i ≤ t.restartsFor j := by
  induction i generalizing j with
  | zero => exact Nat.zero_le _
  | succ i ih =>
    obtain ⟨j, rfl⟩ := Nat.exists_eq_add_of_le' (Nat.one_le_of_lt h)
    exact Nat.add_le_add_left (Nat.mul_le_mul_left _ (ih (Nat.le_of_succ_le_succ h))) 1

/-- The first number of restarts that is enough for a link leaves that link out of those settled
before, so the links that are replaced for it are fewer. -/
theorem Ends.enough_of_mem_links {l : Names × String} (hl : l ∈ t.links) (hk : k < k')
    (ih : ∀ i < k', ∀ out, Ends t i [] (replacement l) out →
      Ends t ((replacement l).length * t.restartsFor (t.settledLinks i).card) [] (replacement l) out)
    (h : Ends t k [] (replacement l) out) :
    ∃ room, t.restartsFor (t.settledLinks k').card = room + 1 ∧
      Ends t room [] (replacement l) out := by
  have hsettled : realpathWithin t (k + 1) (replacement l) ≠ .error .endless := by
    rw [(realpathWithin_succ_eq_iff h.2).mpr h]
    exact h.2
  have hexists : ∃ m, realpathWithin t m (replacement l) ≠ .error .endless := ⟨_, hsettled⟩
  obtain ⟨i, hi⟩ := Nat.exists_eq_succ_of_ne_zero (n := Nat.find hexists) fun hzero =>
    Nat.find_spec hexists (by rw [hzero]; rfl)
  have hfirst := Nat.find_spec hexists
  have hik : i ≤ k := Nat.le_of_succ_le_succ (hi ▸ Nat.find_min' hexists hsettled)
  rw [hi] at hfirst
  have hbefore : realpathWithin t i (replacement l) = .error .endless :=
    not_not.mp (Nat.find_min hexists (hi ▸ i.lt_succ_self))
  have hends : Ends t i [] (replacement l) out := by
    refine (realpathWithin_succ_eq_iff h.2).mp ?_
    rw [← realpathWithin_mono (Nat.succ_le_succ hik) hfirst]
    exact (realpathWithin_succ_eq_iff h.2).mpr h
  have hfewer := card_settledLinks_lt hl (hik.trans hk.le) hbefore
    (by rwa [realpathWithin_mono hk hsettled])
  obtain ⟨c, hc⟩ := Nat.exists_eq_succ_of_ne_zero (Nat.ne_zero_of_lt hfewer)
  rw [hc] at hfewer
  refine ⟨t.linkSpan * t.restartsFor c, by rw [hc, restartsFor, Nat.add_comm],
    (ih i (by omega) out hends).mono ?_⟩
  exact Nat.mul_le_mul (length_replacement_le hl) (restartsFor_mono (Nat.le_of_lt_succ hfewer))

theorem Ends.enough (h : Ends t k above names out) :
    Ends t (names.length * t.restartsFor (t.settledLinks k).card) above names out := by
  induction k using Nat.strong_induction_on generalizing above names out with
  | _ k ihk =>
    induction names generalizing above with
    | nil => exact ⟨h.1, h.2⟩
    | cons n rest ih =>
      rw [List.length_cons, Nat.succ_mul]
      rcases descend_cases t above n with ⟨stop, -, hstep⟩ | hstep | ⟨l, hl, -, hstep⟩
      · exact ⟨(hstep _ _).trans ((hstep _ _).symm.trans h.1), h.2⟩
      · have hrest := ih ⟨(hstep _ _).symm.trans h.1, h.2⟩
        exact ⟨(hstep _ _).trans (hrest.mono (Nat.le_add_right _ _)).1, h.2⟩
      · obtain ⟨j, rfl, hj⟩ := (Ends.restart hstep).mp h
        have hfirst {out' : Except Stop Names} (hends : Ends t j [] (replacement l) out') :=
          hends.enough_of_mem_links hl j.lt_succ_self fun i hi _ h' => ihk i hi h'
        rcases hj.of_append with ⟨stop, rfl, hstop⟩ | ⟨p, hp, hrest⟩
        · obtain ⟨room, hroom, hends⟩ := hfirst hstop
          refine (Ends.restart hstep).mpr ⟨_, by rw [hroom, ← Nat.add_assoc], ?_⟩
          exact (hends.append_error rest).mono (Nat.le_add_left _ _)
        · obtain ⟨room, hroom, hends⟩ := hfirst hp
          refine (Ends.restart hstep).mpr ⟨_, by rw [hroom, ← Nat.add_assoc, Nat.add_comm _ room], ?_⟩
          have hmore := ih (hrest.mono j.le_succ)
          rw [hroom] at hmore
          exact hends.append hmore

variable {t' : FileTree} {cwd : Names} {path : String}

/-- The restarts that a search is given are all that it can need. -/
theorem realpath_eq_iff (hout : out ≠ .error .endless) :
    t.realpath cwd path = out ↔ ∃ k, realpathWithin t k (Path.resolve cwd path) = out := by
  refine ⟨fun h => ⟨_, h⟩, ?_⟩
  rintro ⟨k, h⟩
  cases k with
  | zero => exact absurd h.symm hout
  | succ k =>
    have henough := ((realpathWithin_succ_eq_iff hout).mp h).enough
    refine (realpathWithin_succ_eq_iff hout).mpr (henough.mono ?_)
    exact Nat.mul_le_mul_left _ (restartsFor_mono (card_settledLinks_le t k))

/-- A search is endless exactly if it comes to no end, whatever the restarts. -/
theorem realpath_eq_endless_iff :
    t.realpath cwd path = .error .endless ↔
      ∀ k, realpathWithin t k (Path.resolve cwd path) = .error .endless := by
  constructor
  · intro h k
    by_contra hout
    exact hout (((realpath_eq_iff hout).mpr ⟨k, rfl⟩).symm.trans h)
  · exact fun h => h _

theorem realpath_congr
    (h : ∀ k, realpathWithin t' k (Path.resolve cwd path) =
      realpathWithin t k (Path.resolve cwd path)) : t'.realpath cwd path = t.realpath cwd path := by
  by_cases hout : t.realpath cwd path = .error .endless
  · rw [hout, realpath_eq_endless_iff]
    exact fun k => (h k).trans (realpath_eq_endless_iff.mp hout k)
  · obtain ⟨k, hk⟩ := (realpath_eq_iff hout).mp rfl
    exact (realpath_eq_iff hout).mpr ⟨k, (h k).trans hk⟩

end FileTree
end Inliner
