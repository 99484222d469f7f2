import OsuTracker.Model.Updater

/-! # What an extraction leaves behind

The files are overwritten in place, so a failure in the middle leaves the entries in front of it
installed. What holds of every run is that exactly a prefix of the archive is installed, and that
the failing entry has touched its own destination at most.
-/

namespace OsuTracker.Soundness.Extraction

open Cxx Model.Updater

/-! ## Protected names -/

/-- The text that the loop cuts out at a position is the next segment. -/
theorem segment_at {filename : Str} {pos : ℕ} (inside : pos < filename.length) :
    ∃ segment, substr filename pos ((findFirstOf filename pos).map (· - pos)) = .ok segment ∧
      (filename.drop pos).splitOnP isSeparator = segment ::
        match findFirstOf filename pos with
        | none => []
        | some next => (filename.drop (next + 1)).splitOnP isSeparator := by
  have reachable : ¬filename.length < pos := by omega
  cases found : (filename.drop pos).findIdx? isSeparator with
  | none =>
    refine ⟨filename.drop pos, ?_, ?_⟩
    · simp only [substr, if_neg reachable, findFirstOf, found, Option.map_none]
    · simp only [findFirstOf, found, Option.map_none]
      exact List.splitOnP_eq_singleton fun c member => List.findIdx?_eq_none_iff.mp found c member
  | some i =>
    obtain ⟨bound, separates, before⟩ := List.findIdx?_eq_some_iff_getElem.mp found
    have cut : filename.drop pos =
        (filename.drop pos).take i ++ (filename.drop pos)[i] :: filename.drop (pos + i + 1) := by
      conv_lhs => rw [← List.take_append_drop i (filename.drop pos), List.drop_eq_getElem_cons bound]
      rw [List.drop_drop]
      rfl
    have plain : ∀ c ∈ (filename.drop pos).take i, isSeparator c = false := by
      intro c member
      obtain ⟨j, here, rfl⟩ := List.getElem_of_mem member
      rw [List.length_take] at here
      rw [List.getElem_take]
      simpa using before j (by omega)
    refine ⟨(filename.drop pos).take i, ?_, ?_⟩
    · simp only [substr, if_neg reachable, findFirstOf, found, Option.map_some, Nat.add_sub_cancel_left]
    · simp only [findFirstOf, found, Option.map_some]
      conv_lhs => rw [cut]
      exact List.splitOnP_append_cons_of_forall_mem plain _ separates _

/-- The loop looks at the segments between the separators. -/
theorem segmentLoop_eq (filename : Str) (pos : ℕ) :
    segmentLoop filename pos =
      .ok (((filename.drop pos).splitOnP isSeparator).any fun segment => segment.head? == some ('_' : UInt8)) := by
  fun_induction segmentLoop filename pos with
  | case1 pos inside e failed =>
    obtain ⟨segment, cut, _⟩ := segment_at inside
    rw [cut] at failed
    cases failed
  | case2 pos inside segment cut hidden =>
    obtain ⟨_, same, segments⟩ := segment_at inside
    obtain rfl := Except.ok.inj (cut.symm.trans same)
    rw [segments, List.any_cons, hidden, BEq.rfl, Bool.true_or]
  | case3 pos inside segment cut shown last =>
    obtain ⟨_, same, segments⟩ := segment_at inside
    obtain rfl := Except.ok.inj (cut.symm.trans same)
    rw [segments, last, List.any_cons, List.any_nil, beq_eq_false_iff_ne.mpr shown, Bool.false_or]
  | case4 pos inside segment cut shown next found ih =>
    obtain ⟨_, same, segments⟩ := segment_at inside
    obtain rfl := Except.ok.inj (cut.symm.trans same)
    rw [segments, found, List.any_cons, beq_eq_false_iff_ne.mpr shown, Bool.false_or]
    exact ih
  | case5 pos outside =>
    rw [List.drop_eq_nil_of_le (by omega), List.splitOnP_nil]
    rfl

/-- A segment of the name starts with an underscore. -/
def Protected (filename : Str) : Prop :=
  ∃ segment ∈ filename.splitOnP isSeparator, segment.head? = some ('_' : UInt8)

theorem skip_eq (filename : Str) : ∃ hidden, skip filename = .ok hidden ∧ (hidden = true ↔ Protected filename) := by
  refine ⟨_, segmentLoop_eq filename 0, ?_⟩
  rw [List.drop_zero, List.any_eq_true]
  simp only [Protected, beq_iff_eq]

/-! ## The loop over the archive -/

/-- An entry that is to be written: no directory, and no protected segment in its name. -/
def Extracts (e : Entry) : Prop := e.directory = false ∧ ¬Protected e.filename

instance (e : Entry) : Decidable (Extracts e) :=
  inferInstanceAs (Decidable (e.directory = false ∧ ¬∃ segment ∈ e.filename.splitOnP isSeparator, _ = _))

section Archive

variable {File : Type} [DecidableEq File] (locate : Str → Option File)

/-- The entry is described, and if it is to be written its destination opens and takes it. -/
def Succeeds (e : Entry) : Prop :=
  e.stat = true ∧ (Extracts e → e.attempt = .complete ∧ (locate e.filename).isSome = true)

/-- The entries have been written over `t`, a later one for the same file over an earlier one, and
every other file is as it was. -/
structure Installed (entries : List Entry) (t t' : FileTree File) : Prop where
  written : ∀ before e after, entries = before ++ e :: after → Extracts e →
    ∃ file, locate e.filename = some file ∧
      ((∀ later ∈ after, Extracts later → locate later.filename ≠ some file) → t' file = some e.content)
  kept : ∀ file, (∀ e ∈ entries, Extracts e → locate e.filename ≠ some file) → t' file = t file

/-- What the failing entry leaves: its destination is untouched or holds what was written so far. -/
def Stopped (e : Entry) (t t' : FileTree File) : Prop :=
  t' = t ∨ ∃ file written, Extracts e ∧ locate e.filename = some file ∧ e.attempt = .broken written ∧
    t' = Function.update t file (some written)

theorem extractEntry_eq {e : Entry} (described : e.stat = true) (t : FileTree File) :
    extractEntry locate e t = if Extracts e then extractToFile locate e t else .done t := by
  obtain ⟨hidden, skips, meaning⟩ := skip_eq e.filename
  rw [extractEntry, if_neg (by simp [described]), skips]
  cases hidden with
  | true => exact (if_neg fun extracts => extracts.2 (meaning.mp rfl)).symm
  | false =>
    have open_ : ¬Protected e.filename := fun protected_ => Bool.false_ne_true (meaning.mpr protected_)
    cases directory : e.directory with
    | true => exact (if_neg fun extracts => Bool.false_ne_true (extracts.1.symm.trans directory)).symm
    | false => exact (if_pos ⟨directory, open_⟩).symm

/-- An entry that succeeds installs itself. -/
theorem extractEntry_of_succeeds {e : Entry} (succeeds : Succeeds locate e) (t : FileTree File) :
    ∃ t', extractEntry locate e t = .done t' ∧
      (Extracts e → ∃ file, locate e.filename = some file ∧ t' file = some e.content) ∧
      ∀ file, (Extracts e → locate e.filename ≠ some file) → t' file = t file := by
  rw [extractEntry_eq locate succeeds.1]
  by_cases extracts : Extracts e
  · obtain ⟨complete, opens⟩ := succeeds.2 extracts
    obtain ⟨file, located⟩ := Option.isSome_iff_exists.mp opens
    refine ⟨Function.update t file (some e.content), ?_, fun _ => ⟨file, located, ?_⟩, fun other apart => ?_⟩
    · rw [if_pos extracts, extractToFile, extracts.1, complete, located]
      rfl
    · rw [Function.update_self]
    · refine Function.update_of_ne ?_ _ _
      rintro rfl
      exact apart extracts located
  · exact ⟨t, if_neg extracts, fun is => absurd is extracts, fun _ _ => rfl⟩

/-- One that does not stops the loop, and touches its own destination at most. -/
theorem extractEntry_of_fails {e : Entry} (fails : ¬Succeeds locate e) (t : FileTree File) :
    ∃ t', extractEntry locate e t = .threw .failed t' ∧ Stopped locate e t t' := by
  by_cases described : e.stat = true
  · rw [extractEntry_eq locate described]
    by_cases extracts : Extracts e
    · rw [if_pos extracts, extractToFile, extracts.1]
      cases attempt : e.attempt with
      | refused => exact ⟨t, rfl, .inl rfl⟩
      | broken written =>
        cases located : locate e.filename with
        | none => exact ⟨t, rfl, .inl rfl⟩
        | some file => exact ⟨_, rfl, .inr ⟨file, written, extracts, located, attempt, rfl⟩⟩
      | complete =>
        cases located : locate e.filename with
        | none => exact ⟨t, rfl, .inl rfl⟩
        | some file => exact absurd ⟨described, fun _ => ⟨attempt, by rw [located]; rfl⟩⟩ fails
    · exact absurd ⟨described, fun is => absurd is extracts⟩ fails
  · rw [extractEntry, if_pos (by simpa using described)]
    exact ⟨t, rfl, .inl rfl⟩

/-- A run of entries that succeed installs all of them. -/
theorem each_of_succeed {entries : List Entry} (succeed : ∀ e ∈ entries, Succeeds locate e) (t : FileTree File) :
    ∃ t', Outcome.each (extractEntry locate) entries t = .done t' ∧ Installed locate entries t t' := by
  induction entries generalizing t with
  | nil =>
    refine ⟨t, rfl, fun before e after none => ?_, fun _ _ => rfl⟩
    cases before <;> cases none
  | cons first rest ih =>
    obtain ⟨own, others⟩ := List.forall_mem_cons.mp succeed
    obtain ⟨middle, ran, written, kept⟩ := extractEntry_of_succeeds locate own t
    obtain ⟨t', finished, installed⟩ := ih others middle
    refine ⟨t', ?_, fun before e after split extracts => ?_, fun file apart => ?_⟩
    · rw [Outcome.each_cons, ran, Outcome.andThen_done, finished]
    · cases before with
      | nil =>
        cases split
        obtain ⟨file, located, content⟩ := written extracts
        exact ⟨file, located, fun last => (installed.kept file last).trans content⟩
      | cons head before =>
        cases split
        exact installed.written before e after rfl extracts
    · obtain ⟨ownApart, othersApart⟩ := List.forall_mem_cons.mp apart
      exact (installed.kept file othersApart).trans (kept file ownApart)

omit [DecidableEq File] in
/-- The first entry that fails. -/
theorem exists_first_failure {entries : List Entry} (fails : ¬∀ e ∈ entries, Succeeds locate e) :
    ∃ before e after, entries = before ++ e :: after ∧ (∀ b ∈ before, Succeeds locate b) ∧ ¬Succeeds locate e := by
  induction entries with
  | nil => exact absurd nofun fails
  | cons first rest ih =>
    by_cases own : Succeeds locate first
    · obtain ⟨before, e, after, rfl, good, failed⟩ :=
        ih fun others => fails (List.forall_mem_cons.mpr ⟨own, others⟩)
      exact ⟨first :: before, e, after, rfl, List.forall_mem_cons.mpr ⟨own, good⟩, failed⟩
    · exact ⟨[], first, rest, rfl, nofun, own⟩

/-- Of every archive a prefix is installed: all of it with the result true, or the entries in front
of the first that fails with the result false. -/
theorem extractZip_installs_prefix (entries : List Entry) (t : FileTree File) :
    extractZip locate none t = (.ok false, t) ∧
      ((∀ e ∈ entries, Succeeds locate e) ∧
        (∃ t', extractZip locate (some entries) t = (.ok true, t') ∧ Installed locate entries t t') ∨
      ∃ before e after middle t', entries = before ++ e :: after ∧ (∀ b ∈ before, Succeeds locate b) ∧
        ¬Succeeds locate e ∧ extractZip locate (some entries) t = (.ok false, t') ∧
        Installed locate before t middle ∧ Stopped locate e middle t') := by
  refine ⟨rfl, ?_⟩
  by_cases succeed : ∀ e ∈ entries, Succeeds locate e
  · obtain ⟨t', ran, installed⟩ := each_of_succeed locate succeed t
    refine .inl ⟨succeed, t', ?_, installed⟩
    rw [extractZip, ran]
  · obtain ⟨before, e, after, rfl, good, fails⟩ := exists_first_failure locate succeed
    obtain ⟨middle, ran, installed⟩ := each_of_succeed locate good t
    obtain ⟨t', stopped, left⟩ := extractEntry_of_fails locate fails middle
    refine .inr ⟨before, e, after, middle, t', rfl, good, fails, ?_, installed, left⟩
    rw [extractZip, Outcome.each_append, ran, Outcome.andThen_done, Outcome.each_cons, stopped]
    rfl

/-- All of the archive, or nothing that was there before. -/
def AllOrNothing (entries : List Entry) (t : FileTree File) : Prop :=
  match extractZip locate (some entries) t with
  | (.ok true, t') =>
    (∀ e ∈ entries, Extracts e → ∃ file, locate e.filename = some file ∧ t' file = some e.content) ∧
      ∀ file, (∀ e ∈ entries, Extracts e → locate e.filename ≠ some file) → t' file = t file
  | (.ok false, t') => ∀ file, t file ≠ none → t' file = t file
  | (.error _, _) => False

end Archive

/-- Names without a folder can be opened: the installation has no folders yet. -/
def flat (name : Str) : Option Str := if name.any isSeparator then none else some name

def program (content : Str) : Entry := { filename := "osu-tracker", content := content }

/-- A release that brings a folder. -/
def release : List Entry :=
  [program "new", { filename := "fonts/", directory := true, content := [] }, { filename := "fonts/a.ttf", content := "font" }]

def former : FileTree Str := fun file => if file = ("osu-tracker" : Str) then some "old" else none

/-- One file twice; the later content stays. -/
def twice : List Entry := [program "new", program "newer"]

theorem extractEntry_program (content : Str) (t : FileTree Str) :
    extractEntry flat (program content) t = .done (Function.update t "osu-tracker" (some content)) := by
  have extracts : Extracts (program []) := by decide +kernel
  rw [extractEntry_eq flat rfl, if_pos (show Extracts (program content) from extracts)]
  rfl

/-- The program is overwritten, then the file of the new folder cannot be opened. -/
theorem release_half_installed :
    extractZip flat (some release) former = (.ok false, Function.update former "osu-tracker" (some "new")) ∧
      ¬AllOrNothing flat release former ∧ ¬AllOrNothing flat twice former := by
  have ran : extractZip flat (some release) former = (.ok false, Function.update former "osu-tracker" (some "new")) := by
    rw [extractZip, release, Outcome.each_cons, extractEntry_program, Outcome.andThen_done, Outcome.each_cons,
      extractEntry_eq flat rfl, if_neg (by decide +kernel), Outcome.andThen_done, Outcome.each_cons,
      extractEntry_eq flat rfl, if_pos (by decide +kernel)]
    rfl
  have ranTwice : extractZip flat (some twice) former = (.ok true,
      Function.update (Function.update former "osu-tracker" (some "new")) "osu-tracker" (some "newer")) := by
    rw [extractZip, twice, Outcome.each_cons, extractEntry_program, Outcome.andThen_done, Outcome.each_cons,
      extractEntry_program]
    rfl
  refine ⟨ran, fun safe => ?_, fun safe => ?_⟩
  · rw [AllOrNothing, ran] at safe
    have kept := safe "osu-tracker" (by decide +kernel)
    rw [Function.update_self] at kept
    exact absurd kept (by decide +kernel)
  · rw [AllOrNothing, ranTwice] at safe
    obtain ⟨file, located, content⟩ := safe.1 (program "new") List.mem_cons_self (by decide +kernel)
    obtain rfl : ("osu-tracker" : Str) = file := Option.some.inj located
    rw [Function.update_self] at content
    exact absurd content (by decide +kernel)

end OsuTracker.Soundness.Extraction
