import Intonation.Fields.Settings
import Mathlib.Tactic

/-!
# Validated settings

Fields only override valid settings by valid ones. Either all of them are good, and change just what
they name, or the names of the bad ones are reported together.

## Main definitions

* `Settings.Knob`, `Settings.knobs`: the fields of settings
* `Settings.Overrides`: settings that fields make out of a base
* `Settings.IsBad`: fields that settings do not have or cannot hold

## Main statements

* `Settings.valid_of_override`: overriding keeps settings valid
* `Settings.override_cases`: what overriding results in
-/

namespace Intonation

namespace Fields

variable {fields : Fields} {name : String}

theorem find?_eq_none_iff : fields.find? name = none ↔ name ∉ fields.map Prod.fst := by
  simp only [find?, List.lookup_eq_none_iff, List.mem_reverse, List.mem_map, bne_iff_ne]
  grind

theorem mem_sortedNames {names : List String} : name ∈ sortedNames names ↔ name ∈ names := by
  simp [sortedNames]

theorem sortedNames_eq_nil_iff {names : List String} : sortedNames names = [] ↔ names = [] := by
  simp [List.eq_nil_iff_forall_not_mem, mem_sortedNames]

end Fields

namespace Settings

variable {base s : Settings} {fields : Fields} {name : String} {n : Nat}

/-! ## Valid settings -/

/-- What every field is read as, and what stands for a missing one, is what it is overridden by. -/
theorem of_fieldOr? {P : Nat → Prop} {read : Datum → Option Nat} {missing : Nat}
    (hread : ∀ d k, read d = some k → P k) (hmissing : P missing)
    (h : fieldOr? fields name read missing = some n) : P n := by
  unfold fieldOr? at h
  split at h
  · cases h
    exact hmissing
  · exact hread _ _ h

theorem of_componentsOf? {d : Datum} (h : componentsOf? d = some n) : 1 ≤ n ∧ n ≤ maxComponents := by
  obtain ⟨k, -, h⟩ := Option.bind_eq_some_iff.mp h
  split at h
  · cases h
    omega
  · cases h

theorem of_boundOf? {above : Nat} {d : Datum} (h : boundOf? above d = some n) : above < n := by
  obtain ⟨k, -, h⟩ := Option.bind_eq_some_iff.mp h
  split at h
  · cases h
    omega
  · cases h

theorem valid_of_override (hbase : base.Valid) (h : base.override fields = .ok s) : s.Valid := by
  unfold override at h
  simp only at h
  split at h
  · next hcomponents habsurd hdenominator _ =>
    cases h
    have hcount := of_fieldOr? (fun _ _ => of_componentsOf?)
      ⟨hbase.components_pos, hbase.components_le⟩ hcomponents
    exact ⟨hcount.1, hcount.2,
      of_fieldOr? (fun _ _ => of_boundOf?) hbase.absurd_pos habsurd,
      of_fieldOr? (fun _ _ => of_boundOf?) hbase.pow_gt_one hdenominator⟩
  · cases h

/-! ## Overridden settings -/

/-- A field of settings: its name, what it is read from, and what it holds. -/
structure Knob where
  name : String
  read : Datum → Option Nat
  value : Settings → Nat

/-- The fields of settings. -/
def knobs : List Knob :=
  [⟨"number_of_components", componentsOf?, numberOfComponents⟩,
    ⟨"absurd_exponent", boundOf? 0, absurdExponent⟩,
    ⟨"max_pow_denominator", boundOf? 1, maxPowDenominator⟩]

theorem map_name_knobs : knobs.map Knob.name = fieldNames := rfl

/-- A field is given that settings do not have, or a datum that its knob is not read from. -/
def IsBad (fields : Fields) (name : String) : Prop :=
  ∃ d, fields.find? name = some d ∧ ∀ k ∈ knobs, k.name = name → k.read d = none

/-- Settings with the fields that are given, and with those of a base otherwise. -/
def Overrides (base : Settings) (fields : Fields) (s : Settings) : Prop :=
  ∀ k ∈ knobs, (fields.find? k.name = none → k.value s = k.value base) ∧
    ∀ d, fields.find? k.name = some d → k.read d = some (k.value s)

theorem fieldOr?_eq_some_iff {read : Datum → Option Nat} {missing : Nat} :
    fieldOr? fields name read missing = some n ↔
      (fields.find? name = none → n = missing) ∧
        ∀ d, fields.find? name = some d → read d = some n := by
  unfold fieldOr?
  cases fields.find? name <;> simp [eq_comm]

theorem fieldOr?_eq_none_iff {read : Datum → Option Nat} {missing : Nat} :
    fieldOr? fields name read missing = none ↔
      ∃ d, fields.find? name = some d ∧ read d = none := by
  unfold fieldOr?
  cases fields.find? name <;> simp

/-- A knob is told by its name. -/
theorem knob_unique {j k : Knob} (hj : j ∈ knobs) (hk : k ∈ knobs) (h : j.name = k.name) :
    j = k := by
  have hnodup : (knobs.map Knob.name).Nodup := by decide
  exact List.inj_on_of_nodup_map hnodup hj hk h

theorem isBad_of_mem_knobs (base : Settings) {k : Knob} (hk : k ∈ knobs) :
    IsBad fields k.name ↔ fieldOr? fields k.name k.read (k.value base) = none := by
  rw [fieldOr?_eq_none_iff]
  refine exists_congr fun d => and_congr_right fun _ => ⟨fun h => h k hk rfl, ?_⟩
  intro h j hj hname
  rwa [knob_unique hj hk hname]

theorem isBad_of_notMem (h : name ∉ fieldNames) :
    IsBad fields name ↔ name ∈ fields.map Prod.fst := by
  rw [← not_not (a := name ∈ _), ← Fields.find?_eq_none_iff, ← ne_eq, Option.ne_none_iff_exists']
  refine exists_congr fun d => and_iff_left ?_
  rintro k hk rfl
  exact absurd (List.mem_map_of_mem hk) h

/-- Whether each knob can be overridden. -/
def checks (base : Settings) (fields : Fields) : List (String × Bool) :=
  knobs.map fun k => (k.name, (fieldOr? fields k.name k.read (k.value base)).isSome)

theorem mem_badNames : name ∈ badNames (checks base fields) fields ↔ IsBad fields name := by
  have hparts : name ∈ badNames (checks base fields) fields ↔
      (∃ k ∈ knobs, fieldOr? fields k.name k.read (k.value base) = none ∧ k.name = name) ∨
        name ∈ fields.map Prod.fst ∧ name ∉ fieldNames := by
    simp [badNames, checks, and_assoc]
  rw [hparts]
  by_cases hname : name ∈ fieldNames
  · obtain ⟨k, hk, rfl⟩ := List.mem_map.mp (map_name_knobs ▸ hname)
    rw [or_iff_left fun h => h.2 hname, isBad_of_mem_knobs base hk]
    constructor
    · rintro ⟨j, hj, h, heq⟩
      rwa [knob_unique hj hk heq] at h
    · intro h
      exact ⟨k, hk, h, rfl⟩
  · rw [isBad_of_notMem hname, and_iff_left hname, or_iff_right]
    rintro ⟨k, hk, -, rfl⟩
    exact hname (List.mem_map_of_mem hk)

theorem badNames_eq_nil_iff :
    badNames (checks base fields) fields = [] ↔ ∀ name, ¬ IsBad fields name := by
  simp [List.eq_nil_iff_forall_not_mem, mem_badNames]

/-- Fields override a base when none of them is bad; otherwise the bad ones are reported. -/
theorem override_cases (base : Settings) (fields : Fields) :
    (∃ names, override base fields = .error (.invalidFields names) ∧ names ≠ [] ∧
      ∀ name, name ∈ names ↔ IsBad fields name) ∨
    ∃ s, override base fields = .ok s ∧ Overrides base fields s ∧ ∀ name, ¬ IsBad fields name := by
  unfold override
  simp only
  split
  · next hcomponents habsurd hdenominator hnil =>
    refine .inr ⟨_, rfl, ?_, badNames_eq_nil_iff.mp hnil⟩
    simp only [Overrides, knobs, List.forall_mem_cons]
    exact ⟨fieldOr?_eq_some_iff.mp hcomponents, fieldOr?_eq_some_iff.mp habsurd,
      fieldOr?_eq_some_iff.mp hdenominator, by simp⟩
  · next hrest =>
    refine .inl ⟨_, rfl, fun hsorted => ?_, fun name => Fields.mem_sortedNames.trans mem_badNames⟩
    have hnil : badNames (checks base fields) fields = [] :=
      Fields.sortedNames_eq_nil_iff.mp hsorted
    -- without bad names every knob is read, which is the first case
    have hread : ∀ k ∈ knobs, ∃ n, fieldOr? fields k.name k.read (k.value base) = some n :=
      fun k hk => Option.ne_none_iff_exists'.mp fun hnone =>
        badNames_eq_nil_iff.mp hnil k.name ((isBad_of_mem_knobs base hk).mpr hnone)
    simp only [knobs, List.forall_mem_cons] at hread
    obtain ⟨⟨_, hcomponents⟩, ⟨_, habsurd⟩, ⟨_, hdenominator⟩, -⟩ := hread
    exact hrest _ _ _ hcomponents habsurd hdenominator hnil

end Settings

end Intonation
