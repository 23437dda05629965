import KeepRules.Json.Model

/-! # Encoding and decoding

What is written as JSON is read back as it was. Nothing at all is kept apart from an empty list or
text on every level, whether it is written as `null` or left out.

* `Decoder.list_map`, `Decoder.optional_ofOption`: lists and options of values that are read back.
* `Decoder.rule_toJson` and the lemmas before it: the parts of a configuration, from the bottom up.
* `Configuration.Field`, `Configuration.AtDefault`: the fields of a configuration, and whether they
  hold their defaults.
* `Decoder.configuration_toJson`: configurations, also with fields left out. -/

set_option autoImplicit false

namespace KeepRules

namespace Decoder

/-! ## Fields -/

section
variable {α β : Type} {value : Decoder α}

@[simp] theorem ok_bind (a : α) (f : α → Except DecodeError β) :
    (Except.ok a >>= f) = f a := rfl

@[simp] theorem map_ok (a : α) (f : α → β) :
    f <$> (Except.ok a : Except DecodeError α) = .ok (f a) := rfl

@[simp] theorem record_object (names : List String) (fields : List (String × Json)) :
    record names (.object fields) = .ok fields := rfl

@[simp] theorem required_some (a : α) : required (some a) = .ok a := rfl

@[simp] theorem field?_nil (name : String) : field? [] name value = .ok none := rfl

theorem lookup_cons (key name : String) (j : Json) (fields : List (String × Json)) :
    ((key, j) :: fields).lookup name = if name = key then some j else fields.lookup name := by
  by_cases h : name = key
  · simp [h]
  · simp [List.lookup_cons, beq_false_of_ne h, h]

@[simp] theorem field?_cons (key name : String) (j : Json) (fields : List (String × Json)) :
    field? ((key, j) :: fields) name value =
      if name = key then some <$> value j else field? fields name value := by
  rw [field?, lookup_cons]
  by_cases h : name = key
  · rw [if_pos h, if_pos h]
    rfl
  · rw [if_neg h, if_neg h]
    rfl

theorem lookup_filter (keeps : String → Bool) (fields : List (String × Json)) (name : String) :
    (fields.filter fun f => keeps f.1).lookup name =
      if keeps name then fields.lookup name else none := by
  induction fields with
  | nil => simp
  | cons f fields ih =>
    obtain ⟨key, j⟩ := f
    rw [List.filter_cons, lookup_cons]
    by_cases hname : name = key
    · subst hname
      cases hk : keeps name <;> simp [ih, hk]
    · cases hk : keeps key <;> simp [lookup_cons, ih, hname]

/-- Of the fields that are kept, those that are there are read. -/
theorem field?_filter {fields : List (String × Json)} {name : String} {j : Json} {a : α}
    (hl : fields.lookup name = some j) (hv : value j = .ok a) (keeps : String → Bool) :
    field? (fields.filter fun f => keeps f.1) name value =
      .ok (if keeps name then some a else none) := by
  rw [field?, lookup_filter, hl]
  cases keeps name with
  | true =>
    show Except.map some (value j) = _
    rw [hv]
    rfl
  | false => rfl

end

@[simp] theorem boolean_bool (b : Bool) : boolean (.bool b) = .ok b := rfl

@[simp] theorem text_string (s : String) : text (.string s) = .ok s := rfl

@[simp] theorem optional_text_string (s : String) : optional text (.string s) = .ok (some s) := rfl

/-- Nothing is told from a value if no value is written as `null`. -/
theorem optional_ofOption {α : Type} {value : Decoder α} {encode : α → Json}
    (h : ∀ a, value (encode a) = .ok a) (hnull : ∀ a, encode a ≠ .null) (o : Option α) :
    optional value (.ofOption encode o) = .ok o := by
  cases o with
  | none => rfl
  | some a =>
    rw [Json.ofOption]
    unfold optional
    split
    · next he => exact absurd he (hnull a)
    · rw [h a]
      rfl

@[simp] theorem optional_text_ofOption (o : Option String) :
    optional text (.ofOption .string o) = .ok o :=
  optional_ofOption text_string nofun o

theorem list_map {α : Type} {value : Decoder α} {encode : α → Json}
    (h : ∀ a, value (encode a) = .ok a) (as : List α) :
    list value (.array (as.map encode)) = .ok as := by
  show (as.map encode).mapM value = _
  induction as with
  | nil => rfl
  | cons a as ih =>
    rw [List.map_cons, List.mapM_cons, h a, ih]
    rfl

/-! ## Parts of configurations -/

@[simp] theorem modifiers_toJson (s : ModifierSet) : modifiers s.toJson = .ok s := by
  have hle : s.toNat ≤ 0xFFFF := Nat.le_trans (Nat.le_of_lt s.word.isLt) (by decide)
  have hnatural : natural 0xFFFF s.toJson = .ok s.toNat := if_pos hle
  simp [modifiers, hnatural, ModifierSet.ofNat?_toNat]
  rfl

@[simp] theorem access_toJson (a : Access) : access a.toJson = .ok a := by
  simp [access, Access.toJson]

@[simp] theorem pathEntry_toJson (e : PathEntry) : pathEntry e.toJson = .ok e := by
  obtain ⟨name, filter⟩ := e
  cases filter <;> simp [pathEntry, PathEntry.toJson, Json.optionalField]

@[simp] theorem classPath_toJson (p : ClassPath) : classPath p.toJson = .ok p :=
  list_map pathEntry_toJson p

@[simp] theorem member_toJson (m : Member) : member m.toJson = .ok m := by
  obtain ⟨access, name, descriptor⟩ := m
  cases name <;> cases descriptor <;> simp [member, Member.toJson, Json.optionalField]

@[simp] theorem intent_toJson (i : KeepIntent) : intent i.toJson = .ok i := by
  simp [intent, KeepIntent.toJson]

@[simp] theorem rule_toJson (r : KeepRule) : rule r.toJson = .ok r := by
  simp [rule, KeepRule.toJson, list_map member_toJson]

end Decoder

/-! ## Configurations -/

namespace Configuration

/-- The fields of a configuration. -/
inductive Field where
  | path (role : PathRole)
  | keep
  | keepAttributes
  | text (option : TextOption)
  | switch (s : Switch)
  deriving DecidableEq

/-- The name of the field in JSON. -/
def Field.name : Field → String
  | path .inJars => "in_jars"
  | path .outJars => "out_jars"
  | path .libraryJars => "library_jars"
  | path .resourceJars => "resource_jars"
  | keep => "keep"
  | keepAttributes => "keep_attributes"
  | text .renameSourceFileAttribute => "new_source_file_attribute"
  | text .printSeeds => "print_seeds"
  | text .printUsage => "print_usage"
  | text .printMapping => "print_mapping"
  | text .applyMapping => "apply_mapping"
  | text .dump => "dump"
  | text .defaultPackage => "default_package"
  | switch .verbose => "verbose"
  | switch .ignoreWarnings => "ignore_warnings"
  | switch .warn => "warn"
  | switch .note => "note"
  | switch .shrink => "shrink"
  | switch .obfuscate => "obfuscate"
  | switch .useMixedCaseClassNames => "use_mixed_case_class_names"
  | switch .overloadAggressively => "overload_aggressively"
  | switch .skipNonPublicLibraryClasses => "skip_non_public_library_classes"

/-- The field has the value that it has if nothing is set. -/
def AtDefault (c : Configuration) : Field → Prop
  | .path role => c.path role = ({} : Configuration).path role
  | .keep => c.keep = ({} : Configuration).keep
  | .keepAttributes => c.keepAttributes = ({} : Configuration).keepAttributes
  | .text option => c.text option = ({} : Configuration).text option
  | .switch s => c.switch s = ({} : Configuration).switch s

instance (c : Configuration) : (f : Field) → Decidable (c.AtDefault f)
  | .path role => inferInstanceAs (Decidable (c.path role = _))
  | .keep => inferInstanceAs (Decidable (c.keep = _))
  | .keepAttributes => inferInstanceAs (Decidable (c.keepAttributes = _))
  | .text option => inferInstanceAs (Decidable (c.text option = _))
  | .switch s => inferInstanceAs (Decidable (c.switch s = _))

theorem path_default (role : PathRole) : ({} : Configuration).path role = none := by
  cases role <;> rfl

theorem text_default (option : TextOption) : ({} : Configuration).text option = none := by
  cases option <;> rfl

namespace Field

def all : List Field :=
  PathRole.all.map path ++ [keep, keepAttributes] ++ TextOption.all.map text ++
    Switch.all.map switch

theorem mem_all (f : Field) : f ∈ all := by
  rcases f with role | _ | _ | option | s
  · cases role <;> decide
  · decide
  · decide
  · cases option <;> decide
  · cases s <;> decide

theorem name_injective {f g : Field} (h : f.name = g.name) : f = g := by
  have hall : ∀ f ∈ all, ∀ g ∈ all, f.name = g.name → f = g := by decide
  exact hall f f.mem_all g g.mem_all h

end Field

end Configuration

namespace Json

def fields : Json → List (String × Json)
  | .object fields => fields
  | _ => []

/-- The object without the fields of these names. -/
def without (names : List String) (j : Json) : Json :=
  .object (j.fields.filter fun f => !names.contains f.1)

end Json

namespace Decoder

open KeepRules.Configuration (Field)

section
variable {fields : List (String × Json)} {c : Configuration}

/-- A configuration is read field by field. -/
theorem configuration_of_fields
    (hpath : ∀ role ∈ PathRole.all,
      Option.join <$> field? fields (Field.path role).name (optional classPath) = .ok (c.path role))
    (hkeep : ∃ rules, field? fields Field.keep.name (list rule) = .ok rules ∧
      rules.getD [] = c.keep)
    (hattributes : ∃ names, field? fields Field.keepAttributes.name (optional (list text)) =
      .ok names ∧ names.join = c.keepAttributes)
    (htext : ∀ option ∈ TextOption.all,
      Option.join <$> field? fields (Field.text option).name (optional text) = .ok (c.text option))
    (hswitch : ∀ s ∈ Switch.all, (·.getD (({} : Configuration).switch s)) <$>
      field? fields (Field.switch s).name boolean = .ok (c.switch s)) :
    configuration (.object fields) = .ok c := by
  obtain ⟨rules, hkeep, hrules⟩ := hkeep
  obtain ⟨names, hattributes, hnames⟩ := hattributes
  simp only [PathRole.all, TextOption.all, Switch.all, List.forall_mem_cons, Field.name,
    Configuration.path, Configuration.text, Configuration.switch]
    at hpath hkeep hattributes htext hswitch
  simp only [configuration, record_object, ok_bind, map_ok, bind_pure_comp, hpath, hkeep,
    hattributes, htext, hswitch, hrules, hnames]

end

section
variable (c : Configuration)

theorem lookup_path (role : PathRole) :
    c.toJson.fields.lookup (Field.path role).name =
      some (.ofOption ClassPath.toJson (c.path role)) := by
  cases role <;> rfl

theorem lookup_text (option : TextOption) :
    c.toJson.fields.lookup (Field.text option).name = some (.ofOption .string (c.text option)) := by
  cases option <;> rfl

theorem lookup_switch (s : Switch) :
    c.toJson.fields.lookup (Field.switch s).name = some (.bool (c.switch s)) := by
  cases s <;> rfl

/-- A field is read unless it is left out. -/
theorem field?_without {α : Type} {value : Decoder α} {f : Field} {j : Json} {a : α}
    (hl : c.toJson.fields.lookup f.name = some j) (hv : value j = .ok a) (omitted : List Field) :
    field? (c.toJson.without (omitted.map Field.name)).fields f.name value =
      .ok (if f ∈ omitted then none else some a) := by
  have hname : f.name ∈ omitted.map Field.name ↔ f ∈ omitted := by
    constructor
    · intro h
      obtain ⟨g, hg, he⟩ := List.mem_map.1 h
      exact Configuration.Field.name_injective he ▸ hg
    · exact List.mem_map_of_mem
  rw [Json.without, Json.fields, field?_filter hl hv fun name => !List.contains _ name]
  simp only [List.contains_eq_mem, hname, Bool.not_eq_true', decide_eq_false_iff_not, ite_not]

end

theorem getD_omitted {α : Type} {p : Prop} [Decidable p] {a b : α} (h : p → a = b) :
    (if p then none else some a).getD b = a := by
  split
  · next hp => exact (h hp).symm
  · rfl

theorem join_omitted {α : Type} {p : Prop} [Decidable p] {o : Option α} (h : p → o = none) :
    (if p then none else some o).join = o := by
  split
  · next hp => exact (h hp).symm
  · rfl

/-- **Configurations are read back.** A configuration that has been written as JSON is read back,
also if any of the fields that hold their defaults are left out. -/
theorem configuration_toJson (c : Configuration) :
    configuration c.toJson = .ok c ∧
      ∀ omitted : List Field, (∀ f ∈ omitted, c.AtDefault f) →
        configuration (c.toJson.without (omitted.map Field.name)) = .ok c := by
  suffices h : ∀ omitted : List Field, (∀ f ∈ omitted, c.AtDefault f) →
      configuration (c.toJson.without (omitted.map Field.name)) = .ok c from ⟨h [] nofun, h⟩
  intro omitted hdefault
  show configuration (.object (c.toJson.without (omitted.map Field.name)).fields) = .ok c
  refine configuration_of_fields (fun role _ => ?_) ⟨_, ?_, getD_omitted (hdefault .keep)⟩
    ⟨_, ?_, join_omitted (hdefault .keepAttributes)⟩ (fun option _ => ?_) (fun s _ => ?_)
  · rw [field?_without c (lookup_path c role) (optional_ofOption classPath_toJson nofun _)]
    exact congrArg Except.ok (join_omitted fun h =>
      (hdefault _ h).trans (Configuration.path_default role))
  · exact field?_without c rfl (list_map rule_toJson _) omitted
  · exact field?_without c rfl (optional_ofOption (list_map text_string) nofun _) omitted
  · rw [field?_without c (lookup_text c option) (optional_text_ofOption _)]
    exact congrArg Except.ok (join_omitted fun h =>
      (hdefault _ h).trans (Configuration.text_default option))
  · rw [field?_without c (lookup_switch c s) (boolean_bool _)]
    exact congrArg Except.ok (getD_omitted (hdefault (.switch s)))

/-- A configuration with an empty class path, an empty filter, an empty comment and a modifier that
is both required and forbidden. -/
def emptyParts : Configuration where
  inJars := some []
  outJars := some [{ name := "a" }, { name := "", filter := some "" }]
  keep := [{
    className := none
    intent := .keep
    comments := some ""
    fields :=
      [{ access := { required := .singleton .accStatic, forbidden := .singleton .accStatic } }] }]
  keepAttributes := some []
  warn := false

theorem configuration_toJson_emptyParts :
    (∀ f ∈ [Field.path .libraryJars, .text .dump, .switch .verbose], emptyParts.AtDefault f) ∧
      configuration (emptyParts.toJson.without ["library_jars", "dump", "verbose"]) =
        .ok emptyParts := by
  have hdefault :
      ∀ f ∈ [Field.path .libraryJars, .text .dump, .switch .verbose], emptyParts.AtDefault f := by
    decide
  exact ⟨hdefault, (configuration_toJson emptyParts).2 _ hdefault⟩

end Decoder

end KeepRules
