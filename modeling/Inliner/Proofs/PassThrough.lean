import Inliner.Proofs.Idempotence
import Inliner.Proofs.Lines

/-! Files without directives, byte by byte. A run on such a file copies it, with its last line
ended, if the input and the base directory can be made canonical. -/
namespace Inliner
namespace Text

/-- Bytes with their last line ended. -/
def endLine (bytes : Bytes) : Bytes :=
  if bytes = [] ∨ bytes.getLast? = some 0x0A then bytes else bytes ++ [0x0A]

theorem encodeUtf8_append (a b : String) : encodeUtf8 (a ++ b) = encodeUtf8 a ++ encodeUtf8 b := by
  rw [encodeUtf8, String.toList_append, List.flatMap_append]
  rfl

theorem encodeUtf8_eq_nil_iff {text : String} : encodeUtf8 text = [] ↔ text = "" := by
  rw [encodeUtf8, List.flatMap_eq_nil_iff, ← String.toList_eq_nil_iff]
  constructor
  · intro h
    exact List.eq_nil_iff_forall_not_mem.mpr fun c hc => String.utf8EncodeChar_ne_nil (h c hc)
  · intro h c hc
    rw [h] at hc
    cases hc

theorem getLast?_utf8EncodeChar {c : Char} :
    (String.utf8EncodeChar c).getLast? = some 0x0A ↔ c = '\n' := by
  have hnewline : c = '\n' ↔ c.val.toNat = 10 := by
    rw [Char.ext_iff, ← UInt32.toNat_inj]
    rfl
  have hbyte {n : Nat} (hn : n < 256) : UInt8.ofNat n = 0x0A ↔ n = 10 := by
    rw [← UInt8.toNat_inj, toNat_byte hn]
    rfl
  rw [hnewline]
  unfold String.utf8EncodeChar
  dsimp only
  split
  · rw [List.getLast?_singleton, Option.some.injEq, hbyte (by omega)]
  · have hlast : UInt8.ofNat (c.val.toNat % 64 + 128) ≠ 0x0A := by
      rw [ne_eq, hbyte (by omega)]
      omega
    refine iff_of_false ?_ (by omega)
    split
    · simpa using hlast
    · split
      · simpa using hlast
      · simpa using hlast

theorem getLast?_encodeUtf8 {text : String} :
    (encodeUtf8 text).getLast? = some 0x0A ↔ text.toList.getLast? = some '\n' := by
  rw [encodeUtf8]
  rcases List.eq_nil_or_concat text.toList with h | ⟨front, c, h⟩
  · rw [h]
    exact iff_of_false (by simp) (by simp)
  · rw [h, List.concat_eq_append, List.flatMap_append, List.flatMap_singleton,
      List.getLast?_append_of_ne_nil _ String.utf8EncodeChar_ne_nil, getLast?_utf8EncodeChar,
      List.getLast?_concat, Option.some.injEq]

theorem ended_iff {text : String} :
    Ended text ↔ encodeUtf8 text = [] ∨ (encodeUtf8 text).getLast? = some 0x0A := by
  rw [Ended, encodeUtf8_eq_nil_iff, getLast?_encodeUtf8]

theorem encodeUtf8_renderLines_splitLines (text : String) :
    encodeUtf8 (renderLines (splitLines text)) = endLine (encodeUtf8 text) := by
  rw [renderLines_splitLines, endLine]
  by_cases h : Ended text
  · rw [if_pos h, if_pos (ended_iff.mp h)]
  · rw [if_neg h, if_neg (mt ended_iff.mpr h), encodeUtf8_append]
    rfl

/-- Bytes are valid UTF-8 exactly if they are those of a text. -/
theorem isValidUTF8_iff {bytes : Bytes} :
    bytes.toByteArray.IsValidUTF8 ↔ ∃ text, encodeUtf8 text = bytes := by
  constructor
  · rintro ⟨cs, h⟩
    refine ⟨String.ofList cs, ?_⟩
    rw [encodeUtf8, String.toList_ofList]
    exact (List.toByteArray_inj.mp h).symm
  · rintro ⟨text, rfl⟩
    exact ⟨text.toList, rfl⟩

theorem encodeUtf8_decodeUtf8 {bytes : Bytes} (h : bytes.toByteArray.IsValidUTF8) :
    encodeUtf8 (decodeUtf8 bytes) = bytes := by
  obtain ⟨text, rfl⟩ := isValidUTF8_iff.mp h
  rw [decodeUtf8_encodeUtf8]

end Text

theorem FileTree.exists_write {t t' : FileTree} {cwd : Names} {path : String} {content : Text.Bytes}
    (h : t.write cwd path content = .ok t') (content' : Text.Bytes) :
    ∃ t'', t.write cwd path content' = .ok t'' := by
  unfold write at h ⊢
  dsimp only at h ⊢
  split at h
  · cases h
  · exact ⟨_, rfl⟩
  · split at h
    · exact ⟨_, rfl⟩
    · cases h

namespace Machine

open Preprocessor

variable {s : Machine} {cwd : Names} {o : Options} {c : Config} {input output path : String}

/-- The path leads to a regular file with these bytes, which may be read. -/
structure Holds (s : Machine) (cwd : Names) (path : String) (bytes : Text.Bytes) : Prop where
  readable : s.refusal? cwd .read path = none
  content : s.tree.read cwd path = .ok bytes

/-- Some text can be written to the path. -/
def Writable (s : Machine) (cwd : Names) (path : String) : Prop :=
  ∃ text, (((workspace cwd).writeText path text .utf8).run s).1 = .ok ()

theorem Writable.exists_writes (hs : s.Steady) (h : s.Writable cwd path) (text : String) :
    ∃ t, s.Writes cwd path text t := by
  obtain ⟨text', hrun⟩ := h
  obtain ⟨hwrites, -⟩ := writes_of_run hs (eq_of_fst hrun)
  obtain ⟨t₁, hmade, hwritten⟩ := hwrites.tree
  obtain ⟨t, hwritten'⟩ := FileTree.exists_write hwritten (Text.encodeUtf8 text)
  exact ⟨t, hwrites.makes, hwrites.stores, t₁, hmade, hwritten'⟩

theorem outcome_of_plain (hs : s.Steady) {file : String} {r : Resolver} {bytes : Text.Bytes}
    (hc : Config.forInput cwd o input = .ok c) (hfile : fileOf (s.view cwd) input = .ok file)
    (hr : resolverOf (s.view cwd) c = .ok r) (hholds : s.Holds cwd file bytes)
    (hplain : ∀ line ∈ Text.splitLines (Text.decodeUtf8 bytes), Directive.readLine line = .plain) :
    s.outcome cwd o input =
      .ok (Text.renderLines (Text.splitLines (Text.decodeUtf8 bytes))) := by
  have htext : (s.view cwd).textOf file = .ok (Text.decodeUtf8 bytes) :=
    (textOf_eq_ok_iff hs).mpr ⟨hholds.readable, bytes, hholds.content, rfl⟩
  rw [outcome_eq hs]
  exact outcomeOf_of_plain (v := s.view cwd) hc hfile hr htext hplain

theorem canonical_of_processFile (hs : s.Steady) (hc : Config.forInput cwd o input = .ok c)
    (h : ((processFile (workspace cwd) o input output).run s).1 = .ok ()) :
    ∃ file r, fileOf (s.view cwd) input = .ok file ∧ resolverOf (s.view cwd) c = .ok r := by
  obtain ⟨text, houtcome, -⟩ := processFile_writes hs (Akin.refl s) (Prod.ext h rfl)
  rw [outcome_eq hs] at houtcome
  obtain ⟨c', file, r, hc', hfile, hr⟩ := starts_of_outcomeOf houtcome
  have hsame : c' = c := Except.ok.inj (hc'.symm.trans hc)
  rw [hsame] at hr
  exact ⟨file, r, hfile, hr⟩

/-- Files without directives are copied. If the input and the base directory can be made canonical,
without which no run ends well, and the input is a readable regular file in UTF-8 that has ordinary
lines only, then a run on a writable output ends well. The output then leads to a file with the bytes
of the input, and behind them a line feed exactly if there are any and the last is none. Besides,
nothing has changed but that directories were made for the output. -/
theorem processFile_copies_bytes (hs : s.Steady) (cwd : Names) {o : Options} {input : String}
    {c : Config} (hc : Config.forInput cwd o input = .ok c) (output : String) :
    let ended := (processFile (workspace cwd) o input output).run s
    (∀ file r bytes, fileOf (s.view cwd) input = .ok file → resolverOf (s.view cwd) c = .ok r →
      s.Holds cwd file bytes → bytes.toByteArray.IsValidUTF8 →
      (∀ line ∈ Text.splitLines (Text.decodeUtf8 bytes), Directive.readLine line = .plain) →
      s.Writable cwd output →
      ended.1 = .ok () ∧ s.tree.Delivers cwd output (Text.endLine bytes) ended.2.tree) ∧
    (ended.1 = .ok () →
      ∃ file r, fileOf (s.view cwd) input = .ok file ∧ resolverOf (s.view cwd) c = .ok r) := by
  refine ⟨fun file r bytes hfile hr hholds hvalid hplain hwritable => ?_, ?_⟩
  · have houtcome := outcome_of_plain hs hc hfile hr hholds hplain
    obtain ⟨t, hwrites⟩ := hwritable.exists_writes hs
      (Text.renderLines (Text.splitLines (Text.decodeUtf8 bytes)))
    obtain ⟨s', hrun, htree⟩ := exists_processFile_of_writes hs (Akin.refl s) houtcome hwrites
    have hdelivers := hwrites.delivers
    rw [Text.encodeUtf8_renderLines_splitLines, Text.encodeUtf8_decodeUtf8 hvalid] at hdelivers
    rw [hrun, htree]
    exact ⟨rfl, hdelivers⟩
  · exact canonical_of_processFile hs hc

def mixed : Text.Bytes :=
  [0xEF, 0xBB, 0xBF, 0x61, 0x0D, 0x0A, 0x0D, 0x62, 0x0A, 0x0A, 0xC3, 0xA9, 0x0D]

def copying : Machine :=
  { tree := ⟨[(["w"], .directory), (["w", "a"], .file mixed), (["w", "l"], .link "a")]⟩ }

theorem mixed_isValidUTF8 : mixed.toByteArray.IsValidUTF8 :=
  Text.isValidUTF8_iff.mpr ⟨"\uFEFFa\r\n\rb\n\n\u00E9\r", by decide⟩

theorem mixed_plain :
    ∀ line ∈ Text.splitLines (Text.decodeUtf8 mixed), Directive.readLine line = .plain := by
  decide +kernel

/-- The file is read through a link, and copied into itself and into a directory that is made for it. -/
theorem mixed_processFile_copies_bytes :
    copying.Steady ∧
    Config.forInput ["w"] { debug := .bool true } "l" = .ok ⟨.bool true, .count 100, ["w"]⟩ ∧
    fileOf (copying.view ["w"]) "l" = .ok "/w/a" ∧
    resolverOf (copying.view ["w"]) ⟨.bool true, .count 100, ["w"]⟩ = .ok ⟨"/w"⟩ ∧
    copying.Holds ["w"] "/w/a" mixed ∧ mixed.toByteArray.IsValidUTF8 ∧
    (∀ line ∈ Text.splitLines (Text.decodeUtf8 mixed), Directive.readLine line = .plain) ∧
    (∀ output ∈ ["l", "d/e"], copying.Writable ["w"] output) ∧
    ∀ output ∈ ["l", "d/e"],
      ((processFile (workspace ["w"]) { debug := .bool true } "l" output).run copying).1 = .ok () ∧
      copying.tree.Delivers ["w"] output (mixed ++ [0x0A])
        ((processFile (workspace ["w"]) { debug := .bool true } "l" output).run copying).2.tree := by
  have hs : copying.Steady := steady_of_faults_eq_nil rfl
  have hc : Config.forInput ["w"] { debug := .bool true } "l" =
      .ok ⟨.bool true, .count 100, ["w"]⟩ := by cbv
  have hfile : fileOf (copying.view ["w"]) "l" = .ok "/w/a" :=
    eq_ok_of_toOption (by decide +kernel)
  have hr : resolverOf (copying.view ["w"]) ⟨.bool true, .count 100, ["w"]⟩ = .ok ⟨"/w"⟩ := by cbv
  have hholds : copying.Holds ["w"] "/w/a" mixed :=
    ⟨by decide +kernel, eq_ok_of_toOption (by decide +kernel)⟩
  have hwritable : ∀ output ∈ ["l", "d/e"], copying.Writable ["w"] output := by
    intro output houtput
    refine ⟨"", ?_⟩
    fin_cases houtput
    · exact eq_ok_of_toOption (by decide +kernel)
    · exact eq_ok_of_toOption (by decide +kernel)
  refine ⟨hs, hc, hfile, hr, hholds, mixed_isValidUTF8, mixed_plain, hwritable, ?_⟩
  intro output houtput
  exact (processFile_copies_bytes hs ["w"] hc output).1 "/w/a" ⟨"/w"⟩ mixed hfile hr hholds
    mixed_isValidUTF8 mixed_plain (hwritable output houtput)

/-- A directory `/w` with an ordinary file `a`, and a link `l` that leads to the directory `/o/y` but
cannot be made canonical. -/
def severed : Machine :=
  { tree := ⟨[(["o"], .directory), (["o", "dir"], .directory), (["o", "y"], .directory),
      (["o", "y", "z"], .file (Text.encodeUtf8 "x\n")), (["w"], .directory),
      (["w", "d"], .link "/o/dir"), (["w", "l"], .link "d/../y"),
      (["w", "a"], .file (Text.encodeUtf8 "x\n"))]⟩ }

/-- A file of ordinary lines is not copied if the base directory is there but cannot be made
canonical, nor if the input is a regular file of which that is so. -/
theorem severed_not_copied :
    severed.Steady ∧ (Text.encodeUtf8 "x\n").toByteArray.IsValidUTF8 ∧
    (∀ line ∈ Text.splitLines (Text.decodeUtf8 (Text.encodeUtf8 "x\n")),
      Directive.readLine line = .plain) ∧
    severed.Writable ["w"] "/w/out" ∧
    (Config.forInput ["w"] { baseDirectory := .text "/w/l" } "/w/a" =
        .ok ⟨.bool false, .count 100, ["w", "l"]⟩ ∧
      severed.tree.stat ["w"] "/w/l" = .ok (["o", "y"], .directory) ∧
      severed.Holds ["w"] "/w/a" (Text.encodeUtf8 "x\n") ∧
      ((processFile (workspace ["w"]) { baseDirectory := .text "/w/l" } "/w/a" "/w/out").run
        severed).1 ≠ .ok ()) ∧
    Config.forInput ["w"] { baseDirectory := .text "/w" } "/w/l/z" =
        .ok ⟨.bool false, .count 100, ["w"]⟩ ∧
      severed.tree.stat ["w"] "/w" = .ok (["w"], .directory) ∧
      severed.Holds ["w"] "/w/l/z" (Text.encodeUtf8 "x\n") ∧
      ((processFile (workspace ["w"]) { baseDirectory := .text "/w" } "/w/l/z" "/w/out").run
        severed).1 ≠ .ok () := by
  have hfails {x : Except Thrown Unit} (h : x.toOption = none) : x ≠ .ok () := by
    rintro rfl
    cases h
  have hbase : severed.Holds ["w"] "/w/a" (Text.encodeUtf8 "x\n") :=
    ⟨by decide +kernel, eq_ok_of_toOption (by decide +kernel)⟩
  have hinput : severed.Holds ["w"] "/w/l/z" (Text.encodeUtf8 "x\n") :=
    ⟨by decide +kernel, eq_ok_of_toOption (by decide +kernel)⟩
  refine ⟨steady_of_faults_eq_nil rfl, Text.isValidUTF8_iff.mpr ⟨_, rfl⟩, by decide +kernel,
    ⟨"", eq_ok_of_toOption (by decide +kernel)⟩, ⟨by cbv, by decide +kernel, hbase, ?_⟩,
    by cbv, by decide +kernel, hinput, ?_⟩
  · exact hfails (by decide +kernel)
  · exact hfails (by decide +kernel)

end Machine
end Inliner
