import OsuTracker.Soundness.ExporterAgreement
import OsuTracker.Soundness.Replacing

/-! # Expanding a template line

The text files name a text as the overlay socket does, in double braces. `writeStats` goes over a
line once for each name, and every pass searches what the earlier ones put in. No name is found
inside another, so the passes amount to one substitution unless the values put in for earlier names,
with what stands around them, contain a later name that the template does not have there.
-/

namespace OsuTracker.Soundness.Templates

open Cxx Model.Core Model.Core.Config Model.Core.Formatter Model.Web.OverlayDataWs Machine.Substitution
  ExporterAgreement Replacing

/-! ## Specification -/

/-- Every placeholder with the text of its entry; the formatted entry is the one with the same key. -/
def values (g : Globals) : List (Str × Str) :=
  (g.arr.entries.flatMap (rowStats (fmtMap g.arrFormatted))).map fun (name, value) => (placeholder name, value)

/-- The line of the loop after some of its replacements. -/
def replaced (line : Str) (done : List (Str × Str)) : Str :=
  done.foldl (fun line (name, value) => Helpers.replace line name value) line

/-- The line written is the template line with its own placeholders replaced, and every replacement of the
loop finds its placeholder only where the template has it. -/
structure SingleSubstitution (g : Globals) (line : Str) : Prop where
  output : expandLine g line = substitute (values g) line
  untouched : Settled (replaced line) (substitutions g) line

/-- With the texts of the placeholders before it put in all at once, the line has each placeholder as often as
the template line. -/
def Separate (g : Globals) (line : Str) : Prop := Settled (substitute · line) (values g) line

instance (g : Globals) (line : Str) : Decidable (Separate g line) := inferInstanceAs (Decidable (Settled _ _ _))

def Aligned (g : Globals) : Prop := g.arrFormatted.map DataEntry.key = g.arr.entries.map DataEntry.key

instance (g : Globals) : Decidable (Aligned g) := inferInstanceAs (Decidable (_ = _))

/-! ## Placeholders -/

theorem names_free : ∀ name ∈ names, ('{' : UInt8) ∉ name ∧ ('}' : UInt8) ∉ name := by decide +kernel

variable {g : Globals}

theorem values_eq (aligned : Aligned g) : values g = substitutions g := by
  rw [values, rowStats_eq aligned, substitutions_eq]

theorem map_fst_values (aligned : Aligned g) :
    (values g).map Prod.fst = names.map (wrap ('{' : UInt8) ('}' : UInt8)) := by
  have length : g.arrFormatted.length = g.arr.entries.length := by
    simpa only [List.length_map] using congrArg List.length aligned
  rw [values, rowStats_eq aligned, ← names_namedTexts g.arr g.arrFormatted length, List.map_map, List.map_map]
  rfl

theorem apart_values (aligned : Aligned g) : Apart ((values g).map Prod.fst) := by
  rw [map_fst_values aligned]
  exact apart_wrap (by decide) names_free

theorem nodup_values (aligned : Aligned g) : ((values g).map Prod.fst).Nodup := by
  rw [map_fst_values aligned]
  exact (List.nodup_cons.mp names_nodup).2.map wrap_injective

/-! ## Lines -/

/-- The loop makes one pass for each placeholder. -/
theorem replaced_eq (line : Str) {done : List (Str × Str)} (nonempty : ∀ entry ∈ done, entry.1 ≠ []) :
    replaced line done = passes done line := by
  induction done generalizing line with
  | nil => rfl
  | cons entry done ih =>
    obtain ⟨first, others⟩ := List.forall_mem_cons.mp nonempty
    calc replaced line (entry :: done) = replaced (Helpers.replace line entry.1 entry.2) done := rfl
      _ = passes done (substitute [entry] line) := by rw [replace_eq first, ih _ others]

theorem replaced_values (aligned : Aligned g) (line : Str) {before after : List (Str × Str)}
    (split : values g = before ++ after) : replaced line before = passes before line := by
  refine replaced_eq line fun entry member => (apart_values aligned).nonempty entry.1 ?_
  exact List.mem_map_of_mem (split ▸ List.mem_append_left _ member)

theorem expandLine_eq (aligned : Aligned g) (line : Str) : expandLine g line = passes (values g) line := by
  rw [← replaced_values aligned line (List.append_nil _).symm, values_eq aligned]
  rfl

/-- A file whose template lines are all separate. -/
theorem writeStats_eq (aligned : Aligned g) {template : List Str} (separate : ∀ line ∈ template, Separate g line) :
    writeStats g template = (template.map fun line => substitute (values g) line ++ ("\n" : Str)).flatten := by
  refine congrArg List.flatten (List.map_congr_left fun line listed => ?_)
  have once := passes_iff (apart_values aligned) (nodup_values aligned) |>.mpr (separate line listed)
  rw [expandLine_eq aligned, once.1]

theorem single_iff_separate (aligned : Aligned g) (line : Str) : SingleSubstitution g line ↔ Separate g line := by
  have settled : Settled (replaced line) (substitutions g) line ↔ Settled (passes · line) (values g) line := by
    rw [← values_eq aligned]
    refine forall₄_congr fun before name value after => forall_congr' fun split => ?_
    rw [replaced_values aligned line split]
  have single : passes (values g) line = substitute (values g) line ∧ Settled (passes · line) (values g) line ↔
      Settled (substitute · line) (values g) line := passes_iff (apart_values aligned) (nodup_values aligned)
  rw [← expandLine_eq aligned, ← settled] at single
  constructor
  · exact fun once => single.mp ⟨once.output, once.untouched⟩
  · intro separate
    obtain ⟨output, untouched⟩ := single.mpr separate
    exact ⟨output, untouched⟩

/-- The performance points are shown with a separator. -/
def shown : Globals :=
  let arr := StatTable.initial.setSlot "pp" .current "4000"
  { arr, arrFormatted := (arr.setSlot "pp" .current "4,000").entries }

theorem shown_once : SingleSubstitution shown "\x7b\x7bpp_current\x7d\x7d" :=
  (single_iff_separate (by decide +kernel) _).mpr (by decide +kernel)

/-- The player ahead is called like a placeholder. -/
def renamed : Globals where
  arr := (StatTable.initial.setSlot "targetUser" .init "\x7b\x7bcompletion_init_raw\x7d\x7d").setSlot "completion" .init "50"

theorem renamed_expanded_twice :
    ∃ g, updateFormat stableBySort renamed = .done g ∧ Aligned g ∧
      expandLine g "\x7b\x7btargetUser_init_raw\x7d\x7d" = "50" ∧
      substitute (values g) "\x7b\x7btargetUser_init_raw\x7d\x7d" = "\x7b\x7bcompletion_init_raw\x7d\x7d" ∧
      ¬∀ g line, Aligned g → SingleSubstitution g line := by
  have returned : (updateFormat stableBySort renamed).isDone = true := by decide +kernel
  have aligned : Aligned (updateFormat stableBySort renamed).state := by decide +kernel
  have written : expandLine (updateFormat stableBySort renamed).state "\x7b\x7btargetUser_init_raw\x7d\x7d" = "50" := by
    decide +kernel
  have meant : substitute (values (updateFormat stableBySort renamed).state) "\x7b\x7btargetUser_init_raw\x7d\x7d" =
      "\x7b\x7bcompletion_init_raw\x7d\x7d" := by decide +kernel
  refine ⟨_, Outcome.eq_done_of_isDone returned, aligned, written, meant, fun single => ?_⟩
  have same := written.symm.trans ((single _ _ aligned).output.trans meant)
  exact absurd same (by decide)

end OsuTracker.Soundness.Templates
