import Inliner.Proofs.Names

/-! The way from one path to another, found by comparing their texts, stays below the start exactly
if the names of the start are the first names of the target. -/
namespace Inliner.Path

def slashed (names : Names) : List Char := names.flatMap fun n => '/' :: n.toList

def joined : Names → List Char
  | [] => []
  | n :: rest => n.toList ++ slashed rest

@[simp] theorem slashed_nil : slashed [] = [] := rfl
@[simp] theorem slashed_cons (n : String) (rest : Names) :
    slashed (n :: rest) = '/' :: joined (n :: rest) := by simp [slashed, joined]
@[simp] theorem joined_nil : joined [] = [] := rfl
@[simp] theorem joined_cons (n : String) (rest : Names) :
    joined (n :: rest) = n.toList ++ slashed rest := rfl

theorem slashed_append (a b : Names) : slashed (a ++ b) = slashed a ++ slashed b :=
  List.flatMap_append

theorem toList_intercalate_slash (names : Names) :
    ("/".intercalate names).toList = joined names := by
  have htail (rest : Names) (cs : List Char) :
      List.intercalate ['/'] (cs :: rest.map String.toList) = cs ++ slashed rest := by
    induction rest generalizing cs with
    | nil => simp
    | cons n rest ih =>
      rw [List.map_cons, List.intercalate_cons_cons, ih]
      simp
  rw [String.toList_intercalate]
  cases names with
  | nil => rfl
  | cons n rest => exact htail rest n.toList

theorem toList_render (names : Names) : (render names).toList = '/' :: joined names := by
  rw [render, String.toList_append, toList_intercalate_slash]
  rfl

/-- A step up for the text of each name in `back`, and then `onward`. -/
def climb (back onward : List Char) : List Char :=
  "..".toList ++ (List.replicate (back.count '/') "/..".toList).flatten ++ onward

/-- The way from one text to another, which are compared character by character. `back` and `onward`
are what is left of them after and from the last slash that they have in common; `started` tells
that they have something in common. -/
def scan (started : Bool) (back onward : List Char) : (start target : List Char) → List Char
  | [], [] => []
  | [], d :: target =>
    if d = '/' then target else if started then climb back onward else d :: target
  | c :: start, [] => if c = '/' ∨ ¬started then climb start [] else climb back onward
  | c :: start, d :: target =>
    if c = d then
      if c = '/' then scan true start ('/' :: target) start target
      else scan true back onward start target
    else climb back onward

/-- The way from one absolute path to another, found in their texts. -/
def relativeText (start target : String) : String :=
  String.ofList <|
    scan false start.toList.tail ('/' :: target.toList.tail) start.toList.tail target.toList.tail

theorem climb_eq (back onward : List Char) :
    climb back onward = joined (List.replicate (back.count '/' + 1) "..") ++ onward := by
  rw [climb, List.replicate_succ, joined_cons, slashed, List.flatMap_replicate]
  rfl

theorem count_slashed {names : Names} (h : ∀ n ∈ names, '/' ∉ n.toList) :
    (slashed names).count '/' = names.length := by
  induction names with
  | nil => rfl
  | cons n rest ih =>
    have hn : n.toList.count '/' = 0 := List.count_eq_zero.mpr (h n (by simp))
    have hrest := ih fun m hm => h m (List.mem_cons_of_mem n hm)
    rw [slashed_cons, joined_cons, List.count_cons_self, List.count_append, hn, hrest,
      List.length_cons]
    omega

theorem count_joined_cons {n : String} {rest : Names} (h : ∀ m ∈ n :: rest, '/' ∉ m.toList) :
    (joined (n :: rest)).count '/' = rest.length := by
  have hcount := count_slashed h
  rw [slashed_cons, List.count_cons_self, List.length_cons] at hcount
  omega

theorem scan_same {name : List Char} (hslash : '/' ∉ name) (started : Bool)
    (back onward start target : List Char) :
    scan started back onward (name ++ start) (name ++ target) =
      scan (started || !name.isEmpty) back onward start target := by
  induction name generalizing started with
  | nil => simp
  | cons c name ih =>
    have hc : c ≠ '/' := fun he => hslash (by simp [he])
    rw [List.cons_append, List.cons_append, scan, if_pos rfl, if_neg hc,
      ih fun hmem => hslash (List.mem_cons_of_mem c hmem)]
    simp

theorem scan_differ {name other : List Char} (hname : '/' ∉ name) (hother : '/' ∉ other)
    (hne : name ≠ other) {started : Bool} (hstarted : started = true ∨ name ≠ [] ∧ other ≠ [])
    (back onward : List Char) {start target : List Char} (hstart : ∀ c ∈ start.head?, c = '/')
    (htarget : ∀ c ∈ target.head?, c = '/') :
    scan started back onward (name ++ start) (other ++ target) = climb back onward := by
  induction name generalizing started other with
  | nil =>
    obtain rfl : started = true := hstarted.resolve_right fun h => h.1 rfl
    cases other with
    | nil => exact absurd rfl hne
    | cons d other =>
      have hd : d ≠ '/' := fun he => hother (by simp [he])
      cases start with
      | nil => rw [List.nil_append, List.cons_append, scan, if_neg hd, if_pos rfl]
      | cons c start =>
        obtain rfl : c = '/' := hstart c rfl
        rw [List.nil_append, List.cons_append, scan, if_neg (Ne.symm hd)]
  | cons c name ih =>
    have hc : c ≠ '/' := fun he => hname (by simp [he])
    cases other with
    | nil =>
      obtain rfl : started = true := hstarted.resolve_right fun h => h.2 rfl
      cases target with
      | nil => rw [List.nil_append, List.cons_append, scan, if_neg (by simpa using hc)]
      | cons d target =>
        obtain rfl : d = '/' := htarget d rfl
        rw [List.nil_append, List.cons_append, scan, if_neg hc]
    | cons d other =>
      rw [List.cons_append, List.cons_append, scan]
      by_cases hcd : c = d
      · subst hcd
        rw [if_pos rfl, if_neg hc]
        refine ih (fun hmem => hname (List.mem_cons_of_mem c hmem))
          (fun hmem => hother (List.mem_cons_of_mem c hmem)) (fun he => hne (by rw [he])) (.inl rfl)
      · rw [if_neg hcd]

theorem head?_slashed (names : Names) : ∀ c ∈ (slashed names).head?, c = '/' := by
  cases names with
  | nil => simp
  | cons n rest =>
    rw [slashed_cons]
    simp

theorem climb_joined {n : String} {rest : Names} (h : ∀ m ∈ n :: rest, '/' ∉ m.toList)
    (target : Names) :
    climb (joined (n :: rest)) (slashed target) =
      joined ((n :: rest).map (fun _ => "..") ++ target) := by
  rw [climb_eq, count_joined_cons h, List.map_const', List.length_cons, List.replicate_succ,
    List.cons_append, joined_cons, joined_cons, slashed_append, List.append_assoc]

theorem Proper.toList_ne_nil {name : String} (h : Proper name) : name.toList ≠ [] :=
  String.toList_eq_nil_iff.not.mpr h.ne_empty

theorem exists_joined_eq_cons {n : String} (h : Proper n) (rest : Names) :
    ∃ c more, joined (n :: rest) = c :: more ∧ c ≠ '/' := by
  cases hn : n.toList with
  | nil => exact absurd hn h.toList_ne_nil
  | cons c more =>
    refine ⟨c, more ++ slashed rest, by rw [joined_cons, hn, List.cons_append], fun he => ?_⟩
    exact h.no_slash (by simp [hn, he])

theorem scan_joined {start target : Names} (hstart : ∀ n ∈ start, Proper n)
    (htarget : ∀ n ∈ target, Proper n) {started : Bool}
    (hstarted : started = true → start ≠ [] ∧ target ≠ []) :
    scan started (joined start) ('/' :: joined target) (joined start) (joined target) =
      joined (relative start target) := by
  induction start generalizing target started with
  | nil =>
    obtain rfl : started = false := by simpa using fun h => (hstarted h).1 rfl
    cases target with
    | nil => rfl
    | cons n rest =>
      obtain ⟨c, more, hmore, hc⟩ := exists_joined_eq_cons (htarget n (by simp)) rest
      rw [relative_nil, hmore, joined_nil, scan, if_neg hc, if_neg Bool.false_ne_true]
  | cons s ss ih =>
    have hs := hstart s (by simp)
    have hss : ∀ n ∈ ss, Proper n := fun n hn => hstart n (List.mem_cons_of_mem s hn)
    have hslash : ∀ n ∈ s :: ss, '/' ∉ n.toList := fun n hn => (hstart n hn).no_slash
    cases target with
    | nil =>
      obtain rfl : started = false := by simpa using fun h => (hstarted h).2 rfl
      obtain ⟨c, more, hmore, hc⟩ := exists_joined_eq_cons hs ss
      have hclimb := climb_joined hslash []
      rw [hmore, climb, List.count_cons_of_ne hc, ← climb, slashed_nil, List.append_nil] at hclimb
      rw [hmore, joined_nil, scan, if_pos (by simp), hclimb, relative]
      simp
    | cons t ts =>
      have ht := htarget t (by simp)
      have hts : ∀ n ∈ ts, Proper n := fun n hn => htarget n (List.mem_cons_of_mem t hn)
      by_cases hst : s = t
      · subst hst
        have hsome : s.toList.isEmpty = false := by simpa using hs.toList_ne_nil
        rw [relative, if_pos rfl, joined_cons, joined_cons, scan_same hs.no_slash, hsome,
          Bool.not_false, Bool.or_true]
        cases ss with
        | nil =>
          cases ts with
          | nil => rfl
          | cons n rest => rw [slashed_nil, slashed_cons, scan, if_pos rfl, relative_nil]
        | cons m more =>
          cases ts with
          | nil =>
            have hclimb := climb_joined (fun n hn => (hss n hn).no_slash) []
            rw [slashed_nil, List.append_nil] at hclimb
            rw [slashed_nil, slashed_cons, scan, if_pos (.inl rfl), hclimb, relative]
            simp
          | cons n rest =>
            rw [slashed_cons, slashed_cons, scan, if_pos rfl, if_pos rfl]
            exact ih hss hts (by simp)
      · have hchars : s.toList ≠ t.toList := fun he => hst (String.toList_inj.mp he)
        rw [relative, if_neg hst, ← climb_joined hslash, ← slashed_cons, joined_cons, joined_cons]
        exact scan_differ hs.no_slash ht.no_slash hchars
          (.inr ⟨hs.toList_ne_nil, ht.toList_ne_nil⟩) _ _ (head?_slashed ss) (head?_slashed ts)

theorem relativeText_render {start target : Names} (hstart : ∀ n ∈ start, Proper n)
    (htarget : ∀ n ∈ target, Proper n) :
    relativeText (render start) (render target) =
      String.ofList (joined (relative start target)) := by
  rw [relativeText, toList_render, toList_render, List.tail_cons, List.tail_cons,
    scan_joined hstart htarget (by simp)]

/-- A way that does not go up, told by its text. -/
def StaysBelow (way : String) : Prop :=
  way = "" ∨ way ≠ ".." ∧ ¬ "../".toList <+: way.toList ∧ isAbsolute way = false

instance (way : String) : Decidable (StaysBelow way) := inferInstanceAs (Decidable (_ ∨ _))

theorem takeWhile_name {name rest : List Char} (hname : '/' ∉ name)
    (hrest : ∀ c ∈ rest.head?, c = '/') : (name ++ rest).takeWhile (· != '/') = name := by
  have hall : ∀ c ∈ name, (c != '/') = true := fun c hc => by
    rw [bne_iff_ne]
    rintro rfl
    exact hname hc
  rw [List.takeWhile_append_of_pos hall]
  cases rest with
  | nil => rw [List.takeWhile_nil, List.append_nil]
  | cons c rest =>
    obtain rfl : c = '/' := hrest c rfl
    rw [List.takeWhile_cons_of_neg (by simp), List.append_nil]

theorem staysBelow_joined_iff {way : Names} (h : ∀ n ∈ way, n ≠ "" ∧ '/' ∉ n.toList) :
    StaysBelow (String.ofList (joined way)) ↔ way.head? ≠ some ".." := by
  cases way with
  | nil => exact iff_of_true (.inl rfl) (by simp)
  | cons n rest =>
    obtain ⟨hempty, hslash⟩ := h n (by simp)
    have htext : (String.ofList (joined (n :: rest))).toList = n.toList ++ slashed rest := by
      rw [String.toList_ofList, joined_cons]
    have hname := takeWhile_name hslash (head?_slashed rest)
    rw [← htext] at hname
    have hdots (more : List Char) (hmore : ∀ c ∈ more.head?, c = '/')
        (he : (String.ofList (joined (n :: rest))).toList = "..".toList ++ more) : n = ".." := by
      rw [he, takeWhile_name (by decide) hmore] at hname
      exact String.toList_inj.mp hname.symm
    have hsome : n.toList ≠ [] := String.toList_eq_nil_iff.not.mpr hempty
    have hnotEmpty : String.ofList (joined (n :: rest)) ≠ "" := by
      rw [ne_eq, ← String.toList_eq_nil_iff, htext]
      simp [hsome]
    have hrelative : isAbsolute (String.ofList (joined (n :: rest))) = false := by
      cases hn : n.toList with
      | nil => exact absurd hn hsome
      | cons c more =>
        have hc : c ≠ '/' := fun he => hslash (by simp [hn, he])
        rw [isAbsolute, htext, hn]
        simpa using hc
    rw [StaysBelow, or_iff_right hnotEmpty, hrelative, List.head?_cons, ne_eq, ne_eq,
      Option.some_inj, and_iff_left rfl, ← not_or]
    refine not_congr ⟨fun hup => ?_, fun hn => ?_⟩
    · rcases hup with htwo | ⟨more, hmore⟩
      · exact hdots [] (by simp) (by rw [htwo]; rfl)
      · exact hdots ('/' :: more) (by simp) (by rw [← hmore]; rfl)
    · subst hn
      cases rest with
      | nil => exact .inl (by simp)
      | cons m rest => exact .inr ⟨joined (m :: rest), by rw [htext, slashed_cons]; rfl⟩

theorem mem_relative {start target : Names} {n : String} (h : n ∈ relative start target) :
    n = ".." ∨ n ∈ target := by
  induction start generalizing target with
  | nil => exact .inr (by rwa [relative_nil] at h)
  | cons s ss ih =>
    cases target with
    | nil =>
      obtain ⟨_, -, hm⟩ := List.mem_map.mp h
      exact .inl hm.symm
    | cons t ts =>
      rw [relative] at h
      split at h
      · exact (ih h).imp_right (List.mem_cons_of_mem t)
      · rcases List.mem_append.mp h with hup | hdown
        · obtain ⟨_, -, hm⟩ := List.mem_map.mp hup
          exact .inl hm.symm
        · exact .inr hdown

variable {cwd : Names}

/-- Being within a root can be told from the text of the way that leads there. -/
theorem isWithinRoot_iff_staysBelow (hcwd : ∀ n ∈ cwd, Proper n) (root candidate : String) :
    isWithinRoot cwd root candidate = true ↔
      StaysBelow (relativeText (render (resolve cwd root)) (render (resolve cwd candidate))) := by
  have hproper (path : String) : ∀ n ∈ resolve cwd path, Proper n :=
    proper_of_mem_resolve (.inr hcwd)
  rw [isWithinRoot, bne_iff_ne, relativeText_render (hproper root) (hproper candidate),
    staysBelow_joined_iff]
  intro n hn
  rcases mem_relative hn with rfl | hn
  · exact ⟨by decide, by decide⟩
  · exact ⟨(hproper candidate n hn).ne_empty, (hproper candidate n hn).no_slash⟩

theorem isWithinRoot_iff_starts (hcwd : ∀ n ∈ cwd, Proper n) (root candidate : String) :
    isWithinRoot cwd root candidate = true ↔ resolve cwd root <+: resolve cwd candidate :=
  isWithinRoot_iff (proper_of_mem_resolve (.inr hcwd))

theorem segments_append (path rest : String) :
    segments (path ++ "/" ++ rest) = segments path ++ segments rest := by
  have htext : (path ++ "/" ++ rest).toList = path.toList ++ '/' :: rest.toList := by simp
  rw [segments, htext, List.splitOn_append_cons_self, List.map_append, segments, segments]

theorem segments_of_no_slash {name : String} (h : '/' ∉ name.toList) : segments name = [name] := by
  rw [segments, List.splitOn_eq_singleton h, List.map_singleton, String.ofList_toList]

theorem walk_append (above segs rest : List String) :
    walk above (segs ++ rest) = walk (walk above segs) rest := by
  induction segs generalizing above with
  | nil => rfl
  | cons s segs ih =>
    rw [List.cons_append, walk, walk]
    split
    · exact ih above
    · split <;> exact ih _

theorem suffix_walk {segs : List String} (h : ".." ∉ segs) (above : List String) :
    above <:+ walk above segs := by
  induction segs generalizing above with
  | nil => exact List.suffix_rfl
  | cons s segs ih =>
    have hsegs : ".." ∉ segs := fun hmem => h (List.mem_cons_of_mem s hmem)
    have hs : s ≠ ".." := fun he => h (by simp [he])
    rw [walk, if_neg hs]
    split
    · exact ih hsegs above
    · exact (List.suffix_cons s above).trans (ih hsegs (s :: above))

theorem isAbsolute_append_of_ne_empty {path : String} (h : path ≠ "") (rest : String) :
    isAbsolute (path ++ rest) = isAbsolute path := by
  have hsome : path.toList ≠ [] := String.toList_eq_nil_iff.not.mpr h
  rw [isAbsolute, isAbsolute, String.toList_append, List.head?_append_of_ne_nil _ hsome]

theorem resolve_append {path : String} (h : path ≠ "") (cwd : Names) (rest : String) :
    resolve cwd (path ++ "/" ++ rest) =
      (walk (resolve cwd path).reverse (segments rest)).reverse := by
  rw [resolve, segments_append, walk_append, String.append_assoc, isAbsolute_append_of_ne_empty h,
    resolve, List.reverse_reverse]

theorem resolve_append_proper {path name : String} (h : path ≠ "") (hname : Proper name)
    (cwd : Names) : resolve cwd (path ++ "/" ++ name) = resolve cwd path ++ [name] := by
  have hone : ∀ n ∈ [name], Proper n := by simpa using hname
  have hwalk := walk_of_proper hone (resolve cwd path).reverse
  rw [resolve_append h, segments_of_no_slash hname.no_slash, hwalk]
  simp

theorem resolve_prefix_append {path rest : String} (h : path ≠ "") (hrest : ".." ∉ segments rest)
    (cwd : Names) : resolve cwd path <+: resolve cwd (path ++ "/" ++ rest) := by
  have hsuffix := suffix_walk hrest (resolve cwd path).reverse
  rw [resolve_append h]
  exact List.reverse_suffix.mp (by rwa [List.reverse_reverse])

theorem resolve_trailing_slash {path : String} (h : path ≠ "") (cwd : Names) :
    resolve cwd (path ++ "/") = resolve cwd path := by
  have happend := resolve_append h cwd ""
  rw [String.append_empty] at happend
  rw [happend, show segments "" = [""] by decide, walk, if_pos (.inl rfl), walk_nil,
    List.reverse_reverse]

theorem resolve_doubled_slash (cwd : Names) (front back : String) :
    resolve cwd (front ++ "//" ++ back) = resolve cwd (front ++ "/" ++ back) := by
  have hsplit : front ++ "//" ++ back = front ++ "/" ++ ("" ++ "/" ++ back) := by
    rw [← String.toList_inj]
    simp
  have habsolute : isAbsolute (front ++ "//" ++ back) = isAbsolute (front ++ "/" ++ back) := by
    cases hfront : front.toList <;> simp [isAbsolute, hfront]
  rw [resolve, resolve, habsolute, hsplit, segments_append, segments_append, segments_append,
    show segments "" = [""] by decide, walk_append, walk_append _ (segments front)]
  rfl

/-- Being within a root is the order of prefixes on the names of the two paths, also when it is told
by the text of the way between them. So every path is within itself, being within goes on, and these
make no difference: a name that begins like another name or like a step up, a slash at the end or in
a row with another, and a root that is the root of all. -/
theorem isWithinRoot_orders_names (hcwd : ∀ n ∈ cwd, Proper n) :
    (∀ root candidate,
      (isWithinRoot cwd root candidate = true ↔ resolve cwd root <+: resolve cwd candidate) ∧
      (isWithinRoot cwd root candidate = true ↔ StaysBelow
        (relativeText (render (resolve cwd root)) (render (resolve cwd candidate))))) ∧
    (∀ path, isWithinRoot cwd path path = true) ∧
    (∀ {a b c}, isWithinRoot cwd a b = true → isWithinRoot cwd b c = true →
      isWithinRoot cwd a c = true) ∧
    (∀ {path name other below}, path ≠ "" → Proper name → Proper other → name ≠ other →
      ".." ∉ segments below →
      isWithinRoot cwd (path ++ "/" ++ name) (path ++ "/" ++ other) = false ∧
      isWithinRoot cwd (path ++ "/" ++ name) (path ++ "/" ++ other ++ "/" ++ below) = false) ∧
    (∀ {path more below}, path ≠ "" → more ≠ "" → '/' ∉ more.toList → ".." ∉ segments below →
      isWithinRoot cwd path (path ++ "/" ++ (".." ++ more)) = true ∧
      isWithinRoot cwd path (path ++ "/" ++ (".." ++ more) ++ "/" ++ below) = true) ∧
    (∀ path other, path ≠ "" →
      isWithinRoot cwd (path ++ "/") other = isWithinRoot cwd path other ∧
      isWithinRoot cwd other (path ++ "/") = isWithinRoot cwd other path) ∧
    (∀ front back other,
      isWithinRoot cwd (front ++ "//" ++ back) other =
        isWithinRoot cwd (front ++ "/" ++ back) other ∧
      isWithinRoot cwd other (front ++ "//" ++ back) =
        isWithinRoot cwd other (front ++ "/" ++ back)) ∧
    ∀ path, isWithinRoot cwd "/" path = true := by
  have hiff := isWithinRoot_iff_starts hcwd
  refine ⟨?names, ?reflexive, ?transitive, ?siblings, ?dots, ?trailing, ?doubled, ?root⟩
  case names => exact fun root candidate =>
    ⟨hiff root candidate, isWithinRoot_iff_staysBelow hcwd root candidate⟩
  case reflexive => exact fun path => (hiff path path).mpr List.prefix_rfl
  case transitive =>
    intro a b c hab hbc
    exact (hiff a c).mpr (((hiff a b).mp hab).trans ((hiff b c).mp hbc))
  case siblings =>
    intro path name other below hpath hname hother hne hbelow
    have hnot {candidate : String}
        (h : resolve cwd (path ++ "/" ++ other) <+: resolve cwd candidate) :
        isWithinRoot cwd (path ++ "/" ++ name) candidate = false := by
      rw [← Bool.not_eq_true, hiff, resolve_append_proper hpath hname]
      intro hstarts
      rw [resolve_append_proper hpath hother] at h
      have hsame := List.prefix_of_prefix_length_le hstarts h (by simp)
      have heq := hsame.eq_of_length (by simp)
      exact hne (by simpa using heq)
    exact ⟨hnot List.prefix_rfl, hnot (resolve_prefix_append (by simp) hbelow cwd)⟩
  case dots =>
    intro path more below hpath hmore hslash hbelow
    have hsegments : ".." ∉ segments (".." ++ more) := by
      rw [segments_of_no_slash (by simpa using hslash), List.mem_singleton, ← String.toList_inj]
      simpa [String.toList_append] using hmore
    have hstarts := resolve_prefix_append hpath hsegments cwd
    exact ⟨(hiff _ _).mpr hstarts,
      (hiff _ _).mpr (hstarts.trans (resolve_prefix_append (by simp) hbelow cwd))⟩
  case trailing =>
    intro path other hpath
    simp only [isWithinRoot, resolve_trailing_slash hpath, and_self]
  case doubled =>
    intro front back other
    simp only [isWithinRoot, resolve_doubled_slash, and_self]
  case root =>
    intro path
    have hnone : ∀ n ∈ ([] : Names), Proper n := by simp
    have hroot : resolve cwd (render []) = [] := resolve_render cwd hnone
    rw [show render [] = "/" from rfl] at hroot
    exact (hiff "/" path).mpr (hroot ▸ List.nil_prefix)

theorem srv_orders_names :
    (∀ n ∈ ["srv"], Proper n) ∧ isWithinRoot ["srv"] "app" "app//..hidden/a.sh" = true ∧
      isWithinRoot ["srv"] "app" "/srv/application/a.sh" = false := by
  have hcwd : ∀ n ∈ ["srv"], Proper n := by
    intro n hn
    obtain rfl := List.mem_singleton.mp hn
    exact ⟨by decide, by decide, by decide, by decide⟩
  obtain ⟨hiff, -⟩ := isWithinRoot_orders_names hcwd
  have hwithin := (hiff "app" "app//..hidden/a.sh").2.mpr (by decide +kernel)
  refine ⟨hcwd, hwithin, ?_⟩
  rw [← Bool.not_eq_true, (hiff "app" "/srv/application/a.sh").1]
  decide +kernel

end Inliner.Path
