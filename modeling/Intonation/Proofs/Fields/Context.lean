import Intonation.Fields.Context
import Intonation.Proofs.Value.Bounded

/-!
# Well-formed contexts

The sizes of the inflections of a context are finite, and its C4 is built within the bounds in
force then.

## Main definitions

* `Context.WellFormed`: contexts as they are built

## Main statements

* `Context.wellFormed_of_ofFields`: contexts that are built from fields are well-formed
-/

namespace Intonation

/-- A context as it is built: the inflections have finite sizes, and an exact C4 is within the
bounds that were in force. -/
structure Context.WellFormed (c : Context) : Prop where
  up_finite : c.up.isFinite
  lift_finite : c.lift.isFinite
  c4_bounded : c.c4.IsBounded

namespace Context

variable {s : Settings} {fields : Fields} {c : Context}

/-- Reference pitches are built within the bounds in force; values keep theirs. -/
theorem isBounded_of_pitchOf {d : Datum} (hd : ∀ v, d = .value v → v.IsBounded) :
    Ensures Value.IsBounded (pitchOf s d) := by
  have hratio : ∀ q, Ensures Value.IsBounded ((Monzo.ofRatio s q).map Value.exact) := fun q =>
    Monzo.isBounded_exact Monzo.isBounded_ofRatio
  have hfrequency : ∀ q, Ensures Value.IsBounded ((Monzo.ofFrequency s q).map Value.exact) :=
    fun q => Monzo.isBounded_exact Monzo.isBounded_ofFrequency
  have htext : ∀ text v, pitchOfText s text = .ok v → v.IsBounded := by
    intro text v hv
    unfold pitchOfText at hv
    extract_lets cs at hv
    split at hv
    · obtain ⟨q, -, hq⟩ := bind_eq_ok.mp hv
      exact Ensures.iff_forall.mp (hfrequency q) v hq
    · obtain ⟨q, -, hq⟩ := bind_eq_ok.mp hv
      exact Ensures.iff_forall.mp (hratio q) v hq
  cases d with
  | value v => exact hd v rfl
  | truth b => exact hratio _
  | integer n => exact hratio _
  | ratio q => exact hratio _
  | double x => exact Ensures.iff_forall.mpr (htext _)
  | text t => exact Ensures.iff_forall.mpr (htext t)
  | null => trivial
  | other => trivial

theorem isBounded_of_pitchField {d : Option Datum}
    (hd : ∀ v, d = some (.value v) → v.IsBounded) :
    Ensures (fun v? => ∀ v, v? = some v → v.IsBounded) (pitchField s d) := by
  cases d with
  | none =>
    refine Ensures.map Monzo.isBounded_checked ?_
    rintro m hm _ ⟨⟩
    exact hm
  | some d =>
    have hpitch := isBounded_of_pitchOf (s := s) (d := d) fun v h => hd v (congrArg some h)
    unfold pitchField
    simp only
    cases h : pitchOf s d with
    | error f =>
      simp only
      split
      · rintro _ ⟨⟩
      · trivial
    | ok v =>
      rw [h] at hpitch
      rintro _ ⟨⟩
      exact hpitch

theorem isFinite_of_sizeField {d : Option Datum} {missing x : Float} (hmissing : missing.isFinite)
    (h : sizeField d missing = some x) : x.isFinite := by
  cases d with
  | none =>
    cases h
    exact hmissing
  | some d => exact (Option.filter_eq_some_iff.mp h).2

/-- Contexts that are built from fields are well-formed. -/
theorem wellFormed_of_ofFields
    (hvalues : ∀ v, fields.find? "c4" = some (.value v) → v.IsBounded)
    (h : ofFields s fields = .ok c) : c.WellFormed := by
  obtain ⟨c4?, hc4?, h⟩ := bind_eq_ok.mp h
  have hbounded := Ensures.iff_forall.mp (isBounded_of_pitchField hvalues) c4? hc4?
  simp only at h
  split at h
  · next up lift c4 title hup hlift htitle =>
    cases h
    exact ⟨isFinite_of_sizeField (by decide) hup, isFinite_of_sizeField (by decide) hlift,
      hbounded c4 rfl⟩
  · cases h

end Context

end Intonation
