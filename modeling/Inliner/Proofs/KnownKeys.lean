import Inliner.Proofs.Grammar
import Inliner.Proofs.Loading
import Inliner.Proofs.Magnitude
import Inliner.Yaml.Document

/-! What a project file sets depends on its known keys only. The first of them with a value it may
not have is refused, and every unknown key is told of once. -/
namespace Inliner

namespace Text

theorem trim_eq_empty_iff {s : String} : trim s = "" ↔ ∀ c ∈ s.toList, isBlank c = true := by
  have hempty : trim s = "" ↔ trimChars s.toList = [] := by
    rw [← String.toList_inj]
    simp [trim]
  rw [hempty]
  constructor
  · intro h c hc
    obtain ⟨before, after, hbefore, hafter, hsplit⟩ := exists_trimChars s.toList
    rw [h, List.append_nil] at hsplit
    rw [hsplit, List.mem_append] at hc
    exact hc.elim (hbefore c) (hafter c)
  · intro h
    rw [trimChars, trimLeft, List.dropWhile_eq_nil_iff.mpr h, trimRight_nil]

end Text

namespace Fields

/-- The record has a value under the key; one that is missing is none. -/
def Has (fields : Fields) (key : String) (v : Value) : Prop := (key, v) ∈ fields ∧ v ≠ .absent

theorem get?_eq_some_iff {fields : Fields} (h : (fields.map (·.1)).Nodup) {key : String}
    {v : Value} : fields.get? key = some v ↔ (key, v) ∈ fields := by
  induction fields with
  | nil => simp
  | cons f rest ih =>
    obtain ⟨k, old⟩ := f
    rw [List.map_cons, List.nodup_cons] at h
    rw [get?_cons]
    by_cases hk : key = k
    · subst hk
      have habsent : (key, v) ∉ rest := fun hmem => h.1 (List.mem_map.mpr ⟨_, hmem, rfl⟩)
      simp [habsent, eq_comm]
    · simp [hk, ih h.2]

end Fields

/-- A listing of fields: those whose key is an array position come first, in ascending order, and
then the others as they were inserted. -/
structure Lists {α : Type} (fields listed : List (String × α)) : Prop where
  perm : listed.Perm fields
  order : ∃ positions : List (Nat × String × α),
    listed = positions.map (·.2) ++ fields.filter (fun f => (arrayPosition? f.1).isNone) ∧
      positions.Pairwise (fun a b => a.1 ≤ b.1) ∧
      ∀ x ∈ positions, arrayPosition? x.2.1 = some x.1

theorem listingOrder_lists {α : Type} (fields : List (String × α)) :
    Lists fields (listingOrder fields) := by
  have hsorted := List.mergeSort_perm
    (fields.filterMap fun f => (arrayPosition? f.1).map fun n => (n, f)) (fun a b => a.1 ≤ b.1)
  constructor
  · have hpositions : (fields.filterMap fun f => (arrayPosition? f.1).map fun n => (n, f)).map
        (·.2) = fields.filter fun f => (arrayPosition? f.1).isSome := by
      rw [List.map_filterMap, ← List.filterMap_eq_filter]
      refine List.filterMap_congr fun f _ => ?_
      cases h : arrayPosition? f.1 <;> simp [Option.guard, h]
    have hothers : (fields.filter fun f => (arrayPosition? f.1).isNone) =
        fields.filter fun f => !(arrayPosition? f.1).isSome := by simp
    have hperm := (hsorted.map (·.2)).append_right
      (fields.filter fun f => (arrayPosition? f.1).isNone)
    rw [hpositions, hothers] at hperm
    rw [listingOrder, hothers]
    exact hperm.trans (List.filter_append_perm _ fields)
  · refine ⟨_, rfl, ?_, fun x hx => ?_⟩
    · have htrans : ∀ a b c : Nat × String × α, decide (a.1 ≤ b.1) → decide (b.1 ≤ c.1) →
          decide (a.1 ≤ c.1) := by
        intro a b c hab hbc
        rw [decide_eq_true_eq] at *
        omega
      have htotal : ∀ a b : Nat × String × α, decide (a.1 ≤ b.1) || decide (b.1 ≤ a.1) := by
        intro a b
        rw [Bool.or_eq_true, decide_eq_true_eq, decide_eq_true_eq]
        omega
      exact (List.pairwise_mergeSort htrans htotal _).imp of_decide_eq_true
    · obtain ⟨f, -, hf⟩ := List.mem_filterMap.mp (hsorted.mem_iff.mp hx)
      obtain ⟨n, hn, rfl⟩ := Option.map_eq_some_iff.mp hf
      exact hn

namespace ProjectFile

/-- The known keys, in the order in which they are checked. -/
inductive Key where
  | debug | maxDepth | baseDirectory
  deriving DecidableEq

namespace Key

def all : List Key := [.debug, .maxDepth, .baseDirectory]

def name : Key → String
  | .debug => "debug"
  | .maxDepth => "maxDepth"
  | .baseDirectory => "baseDirectory"

theorem map_name_all : all.map name = knownKeys := rfl

theorem mem_all (key : Key) : key ∈ all := by
  cases key <;> decide

theorem name_mem (key : Key) : key.name ∈ knownKeys :=
  map_name_all ▸ List.mem_map_of_mem (mem_all key)

theorem name_inj {key key' : Key} (h : key.name = key'.name) : key = key' := by
  revert h
  cases key <;> cases key' <;> decide

/-- The values that a key may have: a boolean, a positive integer, and a text that is not blank. A
surrogate that stands alone is no blank. -/
inductive Admits : Key → Value → Prop
  | debug (b : Bool) : Admits .debug (.bool b)
  | maxDepth {n : Number} {d : ℕ} (positive : 0 < d) (value : n.value? = some (d : ℚ)) :
      Admits .maxDepth (.number n)
  | baseDirectory {s : String} {c : Char} (mem : c ∈ s.toList) (ink : Text.isBlank c = false) :
      Admits .baseDirectory (.text s)
  | torn (units : List Nat) : Admits .baseDirectory (.torn units)

def refusal (file : String) : Key → Value → Complaint
  | .debug, v => .debugKind file v
  | .maxDepth, v => .depthKind file v
  | .baseDirectory, v => .baseKind file v

/-- What reading the value of a key comes to. -/
inductive Reads (file : String) (key : Key) {α : Type} (wrap : α → Value) :
    Value → Except Thrown (Option α) → Prop
  | missing : Reads file key wrap .absent (.ok none)
  | taken (a : α) (admits : key.Admits (wrap a)) : Reads file key wrap (wrap a) (.ok (some a))
  | refused {v : Value} (given : v ≠ .absent) (admits : ¬key.Admits v) :
      Reads file key wrap v (Config.complain (key.refusal file v))

end Key

def known (fields : Fields) : Fields := fields.filter fun f => knownKeys.contains f.1

def entries (p : ProjectFile) : Fields :=
  p.debug.toList.map (fun b => (Key.debug.name, .bool b)) ++
    p.maxDepth.toList.map (fun n => (Key.maxDepth.name, .number n)) ++
    p.baseDirectory.toList.map (fun w => (Key.baseDirectory.name, .ofWide w))

/-- What a project file sets, without what is told of it. -/
def silent (p : ProjectFile) : ProjectFile := { p with warnings := [] }

variable {file : String} {fields : Fields}

theorem debugOf_reads :
    Key.debug.Reads file .bool (fields.valueOf "debug") (debugOf file fields) := by
  unfold debugOf
  split
  · next h => exact h ▸ .missing
  · next b h => exact h ▸ .taken b (.debug b)
  · next v hmissing hbool =>
    refine .refused hmissing fun h => ?_
    generalize fields.valueOf "debug" = v at hmissing hbool h
    cases h
    exact hbool _ rfl

theorem depthOf_reads :
    Key.maxDepth.Reads file .number (fields.valueOf "maxDepth") (depthOf file fields) := by
  unfold depthOf
  split
  · next h => exact h ▸ .missing
  · next v hmissing =>
    generalize fields.valueOf "maxDepth" = v at hmissing
    cases hv : Config.positiveInteger? v with
    | some n =>
      obtain ⟨rfl, hn⟩ : v = .number n ∧ n.isPositiveInteger = true := by
        unfold Config.positiveInteger? at hv
        grind
      obtain ⟨d, hd, hvalue⟩ := Number.isPositiveInteger_iff.mp hn
      exact .taken n (.maxDepth hd hvalue)
    | none =>
      refine .refused hmissing fun h => ?_
      cases h with
      | maxDepth hd hvalue =>
        have hn := Number.isPositiveInteger_iff.mpr ⟨_, hd, hvalue⟩
        simp [Config.positiveInteger?, hn] at hv

theorem baseOf_reads :
    Key.baseDirectory.Reads file .ofWide (fields.valueOf "baseDirectory") (baseOf file fields) := by
  unfold baseOf
  split
  · next h => exact h ▸ .missing
  · next s h =>
    rw [h]
    split
    · next hblank =>
      refine .refused (by simp) fun h => ?_
      cases h with
      | baseDirectory hc hink => simp [Text.trim_eq_empty_iff.mp hblank _ hc] at hink
    · next hink =>
      obtain ⟨c, hc, hink⟩ : ∃ c ∈ s.toList, Text.isBlank c = false := by
        simpa [Text.trim_eq_empty_iff] using hink
      exact .taken (Text.Wide.whole s) (.baseDirectory hc hink)
  · next us h => exact h ▸ .taken (Text.Wide.torn us) (.torn us)
  · next v hmissing htext htorn =>
    refine .refused hmissing fun h => ?_
    generalize fields.valueOf "baseDirectory" = v at hmissing htext htorn h
    cases h with
    | baseDirectory => exact htext _ rfl
    | torn => exact htorn _ rfl

/-- What checking the fields comes to: all known ones are admitted and taken over, or the first one
that is not is refused. -/
inductive Checked (file : String) (fields : Fields) : Except Thrown ProjectFile → Prop
  | passed {p : ProjectFile}
      (admitted : ∀ key : Key, fields.valueOf key.name ≠ .absent →
        key.Admits (fields.valueOf key.name))
      (taken : ∀ k v, (k, v) ∈ p.entries ↔
        ∃ key : Key, k = key.name ∧ fields.valueOf key.name = v ∧ v ≠ .absent)
      (told : p.warnings = warningsFor file fields) : Checked file fields (.ok p)
  | refused {before after : List Key} {key : Key} (split : Key.all = before ++ key :: after)
      (given : fields.valueOf key.name ≠ .absent) (refused : ¬key.Admits (fields.valueOf key.name))
      (earlier : ∀ k ∈ before, fields.valueOf k.name ≠ .absent →
        k.Admits (fields.valueOf k.name)) :
      Checked file fields (Config.complain (key.refusal file (fields.valueOf key.name)))

theorem Key.Reads.admits {key : Key} {α : Type} {wrap : α → Value} {v : Value} {o : Option α}
    (h : key.Reads file wrap v (.ok o)) (hgiven : v ≠ .absent) : key.Admits v := by
  cases h with
  | missing => exact absurd rfl hgiven
  | taken a admits => exact admits

theorem Key.Reads.mem_iff {key : Key} {α : Type} {wrap : α → Value} {v v' : Value} {o : Option α}
    {k : String} (h : key.Reads file wrap v (.ok o)) (hwrap : ∀ a, wrap a ≠ .absent) :
    (k, v') ∈ o.toList.map (fun a => (key.name, wrap a)) ↔
      k = key.name ∧ v = v' ∧ v' ≠ .absent := by
  cases h with
  | missing => simp +contextual [eq_comm]
  | taken a admits =>
    simp only [Option.toList_some, List.map_cons, List.map_nil, List.mem_singleton,
      Prod.mk.injEq]
    constructor
    · rintro ⟨rfl, rfl⟩
      exact ⟨rfl, rfl, hwrap a⟩
    · rintro ⟨rfl, rfl, -⟩
      exact ⟨rfl, rfl⟩

theorem Key.Reads.error {key : Key} {α : Type} {wrap : α → Value} {v : Value} {e : Thrown}
    (h : key.Reads file wrap v (.error e)) :
    v ≠ .absent ∧ ¬key.Admits v ∧ e = .ofProblem (.settings (key.refusal file v)) := by
  cases h with
  | refused given admits => exact ⟨given, admits, rfl⟩

theorem exists_key_iff {P : Key → Prop} :
    (∃ key, P key) ↔ P .debug ∨ P .maxDepth ∨ P .baseDirectory := by
  constructor
  · rintro ⟨key, h⟩
    cases key <;> simp [h]
  · rintro (h | h | h) <;> exact ⟨_, h⟩

variable (file fields) in
theorem ofFields_checked : Checked file fields (ofFields file fields) := by
  have hdebug : Key.debug.Reads file .bool (fields.valueOf Key.debug.name) _ := debugOf_reads
  have hdepth : Key.maxDepth.Reads file .number (fields.valueOf Key.maxDepth.name) _ :=
    depthOf_reads
  have hbase : Key.baseDirectory.Reads file .ofWide (fields.valueOf Key.baseDirectory.name) _ :=
    baseOf_reads
  unfold ofFields
  cases hd : debugOf file fields with
  | error e =>
    rw [hd] at hdebug
    obtain ⟨given, refused, rfl⟩ := hdebug.error
    exact .refused (show Key.all = [] ++ .debug :: [.maxDepth, .baseDirectory] from rfl) given
      refused (by simp)
  | ok debug =>
    rw [hd] at hdebug
    cases hn : depthOf file fields with
    | error e =>
      rw [hn] at hdepth
      obtain ⟨given, refused, rfl⟩ := hdepth.error
      refine .refused (show Key.all = [.debug] ++ .maxDepth :: [.baseDirectory] from rfl) given
        refused fun k hk => ?_
      obtain rfl := List.mem_singleton.mp hk
      exact hdebug.admits
    | ok depth =>
      rw [hn] at hdepth
      cases hb : baseOf file fields with
      | error e =>
        rw [hb] at hbase
        obtain ⟨given, refused, rfl⟩ := hbase.error
        refine .refused (show Key.all = [.debug, .maxDepth] ++ .baseDirectory :: [] from rfl) given
          refused fun k hk => ?_
        cases k with
        | debug => exact hdebug.admits
        | maxDepth => exact hdepth.admits
        | baseDirectory => simp at hk
      | ok base =>
        rw [hb] at hbase
        refine .passed (fun key => ?_) (fun k v => ?_) rfl
        · cases key with
          | debug => exact hdebug.admits
          | maxDepth => exact hdepth.admits
          | baseDirectory => exact hbase.admits
        · have hwide : ∀ w, Value.ofWide w ≠ .absent := fun w => by cases w <;> simp [Value.ofWide]
          rw [exists_key_iff, ← hdebug.mem_iff (by simp), ← hdepth.mem_iff (by simp),
            ← hbase.mem_iff hwide]
          simp only [entries, List.mem_append, or_assoc]

/-! ### The known fields alone -/

theorem get?_known (key : Key) : (known fields).get? key.name = fields.get? key.name := by
  induction fields with
  | nil => rfl
  | cons f rest ih =>
    obtain ⟨k, v⟩ := f
    rw [Fields.get?_cons, ← ih]
    by_cases hk : key.name = k
    · subst hk
      have hknown : knownKeys.contains key.name = true := List.contains_iff_mem.mpr key.name_mem
      rw [known, List.filter_cons, if_pos hknown, Fields.get?_cons, if_pos rfl, if_pos rfl]
    · rw [if_neg hk, known, List.filter_cons]
      split
      · rw [Fields.get?_cons, if_neg hk, known]
      · rfl

theorem mem_known_iff {key : Key} {v : Value} :
    (key.name, v) ∈ known fields ↔ (key.name, v) ∈ fields := by
  simp [known, List.mem_filter, key.name_mem]

theorem get?_eq_some_iff (hdistinct : ((known fields).map (·.1)).Nodup) {key : Key} {v : Value} :
    fields.get? key.name = some v ↔ (key.name, v) ∈ known fields := by
  rw [← get?_known, Fields.get?_eq_some_iff hdistinct]

section distinct

variable (hdistinct : ((known fields).map (·.1)).Nodup) {fields' : Fields}
  (hperm : (known fields').Perm (known fields))
include hdistinct hperm

theorem valueOf_congr (key : Key) : fields'.valueOf key.name = fields.valueOf key.name := by
  have hdistinct' : ((known fields').map (·.1)).Nodup := (hperm.map _).nodup_iff.mpr hdistinct
  have hget : fields'.get? key.name = fields.get? key.name := by
    refine Option.ext fun v => ?_
    rw [get?_eq_some_iff hdistinct', get?_eq_some_iff hdistinct, hperm.mem_iff]
  rw [Fields.valueOf, Fields.valueOf, hget]

theorem valueOf_iff {key : Key} {v : Value} :
    fields'.valueOf key.name = v ∧ v ≠ .absent ↔ fields.Has key.name v := by
  rw [valueOf_congr hdistinct hperm, Fields.Has, ← mem_known_iff, ← get?_eq_some_iff hdistinct,
    Fields.valueOf]
  cases fields.get? key.name with
  | none => simp +contextual [eq_comm]
  | some w => simp

end distinct

theorem known_listingOrder : (known (listingOrder fields)).Perm (known fields) :=
  (listingOrder_lists fields).perm.filter _

/-- What is set, and what is refused, is read off the values of the known keys. -/
theorem silent_congr {fields' : Fields}
    (h : ∀ key : Key, fields'.valueOf key.name = fields.valueOf key.name) :
    (ofFields file fields').map silent = (ofFields file fields).map silent := by
  have hdebug : debugOf file fields' = debugOf file fields := by
    have hvalue : fields'.valueOf "debug" = fields.valueOf "debug" := h .debug
    rw [debugOf, debugOf, hvalue]
  have hdepth : depthOf file fields' = depthOf file fields := by
    have hvalue : fields'.valueOf "maxDepth" = fields.valueOf "maxDepth" := h .maxDepth
    rw [depthOf, depthOf, hvalue]
  have hbase : baseOf file fields' = baseOf file fields := by
    have hvalue : fields'.valueOf "baseDirectory" = fields.valueOf "baseDirectory" :=
      h .baseDirectory
    rw [baseOf, baseOf, hvalue]
  rw [ofFields, ofFields, hdebug, hdepth, hbase]
  cases debugOf file fields <;> cases depthOf file fields <;> cases baseOf file fields <;> rfl

theorem parse_of_record {yaml : YamlReader} {content : String}
    (h : yaml content = .ok (.record fields)) (file : String) :
    parse yaml content file = ofFields file (listingOrder fields) := by
  rw [parse, h]
  rfl

/-- A mapping in which each known key is given once. It is read exactly if the values of the known
keys are admitted; it sets just these, and every unknown key is told of once, in the order of the
listing. Otherwise the first known key that is not admitted is refused. What is set, or refused,
is the same for every other mapping with the same known fields, in whatever order. -/
theorem parse_by_known_keys {yaml : YamlReader} {content : String} {fields : Fields}
    (hload : yaml content = .ok (.record fields))
    (hdistinct : ((known fields).map (·.1)).Nodup) (file : String) :
    ((∃ p, parse yaml content file = .ok p) ↔
      ∀ (key : Key) (v : Value), fields.Has key.name v → key.Admits v) ∧
    (∀ p, parse yaml content file = .ok p →
      (∀ k v, (k, v) ∈ p.entries ↔ ∃ key : Key, k = key.name ∧ fields.Has k v) ∧
      Lists fields (listingOrder fields) ∧
      p.warnings = ((listingOrder fields).filter fun f => f.1 ∉ knownKeys).map fun f =>
        "Unknown key '" ++ f.1 ++ "' in " ++ file ++ " ignored") ∧
    (∀ e, parse yaml content file = .error e →
      ∃ (before after : List Key) (key : Key) (v : Value), Key.all = before ++ key :: after ∧
        fields.Has key.name v ∧ ¬key.Admits v ∧
        (∀ k ∈ before, ∀ w, fields.Has k.name w → k.Admits w) ∧
        e = .ofProblem (.settings (key.refusal file v))) ∧
    ∀ content' fields', yaml content' = .ok (.record fields') →
      (known fields').Perm (known fields) →
      (parse yaml content' file).map silent = (parse yaml content file).map silent := by
  have hgiven : ∀ {key : Key} {v : Value},
      Fields.valueOf (listingOrder fields) key.name = v ∧ v ≠ .absent ↔ fields.Has key.name v :=
    valueOf_iff hdistinct known_listingOrder
  have hchecked := ofFields_checked file (listingOrder fields)
  rw [parse_of_record hload]
  refine ⟨?_, fun p hp => ?_, fun e he => ?_, fun content' fields' hload' hperm => ?_⟩
  · generalize ofFields file (listingOrder fields) = x at hchecked
    cases hchecked with
    | passed admitted =>
      refine iff_of_true ⟨_, rfl⟩ fun key v hv => ?_
      obtain ⟨rfl, hne⟩ := hgiven.mpr hv
      exact admitted key hne
    | refused split given refused =>
      refine iff_of_false (by simp [Config.complain]) fun hall => ?_
      exact refused (hall _ _ (hgiven.mp ⟨rfl, given⟩))
  · rw [hp] at hchecked
    cases hchecked with
    | passed admitted taken told =>
      refine ⟨fun k v => ?_, listingOrder_lists fields, ?_⟩
      · rw [taken]
        refine exists_congr fun key => and_congr_right ?_
        rintro rfl
        exact hgiven
      · rw [told, warningsFor]
        congr 2
        funext f
        simp
  · rw [he] at hchecked
    cases hchecked with
    | refused split given refused earlier =>
      refine ⟨_, _, _, _, split, hgiven.mp ⟨rfl, given⟩, refused, fun k hk w hw => ?_, rfl⟩
      obtain ⟨rfl, hne⟩ := hgiven.mpr hw
      exact earlier k hk hne
  · rw [parse_of_record hload']
    refine silent_congr fun key => ?_
    have hperm' := known_listingOrder.trans (hperm.trans known_listingOrder.symm)
    have hdistinct' := (known_listingOrder.map (·.1)).nodup_iff.mpr hdistinct
    exact valueOf_congr hdistinct' hperm' key

/-- A mapping with two unknown keys, of which one is an array position, and a limit of five. -/
def mixed : Fields := [("x", .null), ("maxDepth", .number (.count 5)), ("7", .list [])]

theorem load_mixed : Yaml.load "x:\nmaxDepth: 5\n7: []" = .ok (.record mixed) := by
  decide +kernel

theorem mixed_parse_by_known_keys :
    ((known mixed).map (·.1)).Nodup ∧
    (∃ p, parse Yaml.load "x:\nmaxDepth: 5\n7: []" "p" = .ok p ∧
      p.warnings = ["Unknown key '7' in p ignored", "Unknown key 'x' in p ignored"]) ∧
    (parse Yaml.load "maxDepth: 5" "p").map silent =
      (parse Yaml.load "x:\nmaxDepth: 5\n7: []" "p").map silent := by
  have hdistinct : ((known mixed).map (·.1)).Nodup := by decide
  have hone : Yaml.load "maxDepth: 5" = .ok (.record [("maxDepth", .number (.count 5))]) := by
    decide +kernel
  obtain ⟨hread, htold, -, hsame⟩ := parse_by_known_keys load_mixed hdistinct "p"
  have hadmitted : ∀ (key : Key) (v : Value), mixed.Has key.name v → key.Admits v := by
    rintro key v ⟨hv, -⟩
    have hlisted : (key.name, v) ∈ known mixed := mem_known_iff.mpr hv
    obtain ⟨hname, rfl⟩ := Prod.mk.inj (List.mem_singleton.mp hlisted)
    obtain rfl : key = .maxDepth := Key.name_inj hname
    exact .maxDepth (Nat.succ_pos 4) (Number.value?_count 5)
  obtain ⟨p, hp⟩ := hread.mpr hadmitted
  exact ⟨hdistinct, ⟨p, hp, (htold p hp).2.2.trans (by decide +kernel)⟩,
    hsame _ _ hone (by decide)⟩

end ProjectFile
end Inliner
