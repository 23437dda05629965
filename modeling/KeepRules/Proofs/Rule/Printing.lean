import KeepRules.Proofs.Lines
import KeepRules.Proofs.Rule.WellFormed
import KeepRules.Rule.Printer

/-! # Keep rules as they are written

A printable rule is written as the words of a valid phrase that says the rule again.

* `KeepRule.phrase`, `KeepRule.phrase_valid`, `KeepRule.rule_phrase`: the phrase of a rule.
* `KeepRule.spells_lines`: its words are those of the lines of the rule, after its comments. -/

set_option autoImplicit false

namespace KeepRules

open Identifier (IsPatternWord)

namespace Word

/-- The separators that no identifier pattern can hold. -/
def IsSeparator (separator : Char) : Prop := separator = ':' ∨ separator = ';'

/-- The characters of keywords and wildcards. -/
def isKeywordChar (c : Char) : Bool := c.isLower || c ∈ ['-', '!', '*', '<', '>']

theorem isKeywordChar_spec {separator c : Char} (hs : IsSeparator separator)
    (h : isKeywordChar c = true) :
    Text.isBlank c = false ∧ c ≠ '#' ∧ isDelimiter separator c = false := by
  simp only [isKeywordChar, Bool.or_eq_true, decide_eq_true_eq] at h
  rcases h with h | h
  · have hc : 97 ≤ c.toNat ∧ c.toNat ≤ 122 := by
      have hrange : (decide (c.val ≥ 97) && decide (c.val ≤ 122)) = true := h
      simpa [UInt32.le_iff_toNat_le] using hrange
    have hne : ∀ d : Char, d.toNat < 97 ∨ 122 < d.toNat → c ≠ d := by
      intro d hd he
      subst he
      omega
    refine ⟨?_, hne '#' (by decide), ?_⟩
    · simp [Text.isBlank, Text.inRanges, Text.blanks]
      omega
    · have hd : ∀ d ∈ [':', '@', '\x7b', '\x7d', '(', ')', ',', ';'], c ≠ d := by
        intro d hd
        have hall : ([':', '@', '\x7b', '\x7d', '(', ')', ',', ';'].all fun d =>
            d.toNat < 97 || 122 < d.toNat) = true := by decide
        exact hne d (by simpa using List.all_eq_true.1 hall d hd)
      simp only [List.mem_cons, List.not_mem_nil, or_false, forall_eq_or_imp, forall_eq] at hd
      rcases hs with rfl | rfl <;> simp [isDelimiter, delimiters, hd]
  · have hall : (['-', '!', '*', '<', '>'].all fun c =>
        !Text.isBlank c && c != '#' && !isDelimiter separator c) = true := by
      rcases hs with rfl | rfl <;> decide
    simpa [and_assoc] using List.all_eq_true.1 hall c h

theorem isWord_of_keywordChars {separator : Char} (hs : IsSeparator separator) {w : String}
    (hne : w ≠ "") (h : w.toList.all isKeywordChar = true) : IsWord separator w := by
  have hchar := fun c hc => isKeywordChar_spec hs (List.all_eq_true.1 h c hc)
  exact ⟨hne, fun c hc => (hchar c hc).1, fun hc => (hchar '#' hc).2.1 rfl,
    .inr fun c hc => (hchar c hc).2.2⟩

theorem isDelimiter_eq_false {separator c : Char} (hs : IsSeparator separator)
    (h : Identifier.isPatternChar c = true) : isDelimiter separator c = false := by
  have hsub : (delimiters.all fun d => d ∈ Identifier.marks) = true := by decide
  cases hd : isDelimiter separator c with
  | false => rfl
  | true =>
    have hc : c ∈ Identifier.marks := by
      simp only [isDelimiter, Bool.or_eq_true, beq_iff_eq, decide_eq_true_eq] at hd
      rcases hd with rfl | hd
      · rcases hs with rfl | rfl <;> decide
      · exact of_decide_eq_true (List.all_eq_true.1 hsub c hd)
    rw [Identifier.isPatternChar_of_mem hc] at h
    cases h

theorem isWord_of_isPatternWord {separator : Char} {w : String} (hs : IsSeparator separator)
    (h : IsPatternWord w) : IsWord separator w where
  ne_empty := h.ne_empty
  notBlank := h.notBlank
  notComment := Identifier.notMem_of_isPattern h.pattern (by decide)
  delimited :=
    .inr fun c hc => isDelimiter_eq_false hs ((Identifier.isPattern_iff w).1 h.pattern c hc)

theorem isWord_mark {separator : Char} (hs : IsSeparator separator) (m : Mark) :
    IsWord separator m.word := by
  obtain ⟨n, present⟩ := m
  apply isWord_of_keywordChars hs
  · cases present <;> cases n <;> decide
  · cases present <;> cases n <;> decide

section
variable {separator : Char}

theorem isWord_delimiter {s : String} {d : Char} (hs : s = String.singleton d)
    (hd : d ∈ delimiters) : IsWord separator s := by
  subst hs
  have hall : (delimiters.all fun d => !Text.isBlank d && d != '#') = true := by decide
  obtain ⟨hn, hc⟩ : Text.isBlank d = false ∧ d ≠ '#' := by
    simpa using List.all_eq_true.1 hall d hd
  refine ⟨by simp, by simpa using hn, by simpa using hc.symm, .inl ⟨d, ?_, by simp⟩⟩
  simp [isDelimiter, hd]

theorem Spells.semicolon {a : String} {u : List String} (h : Spells separator a u) :
    Spells separator (a ++ ";") (u ++ [";"]) := by
  have := h.delimiter (s := ";") (d := ';') rfl (by simp [isDelimiter, delimiters]) (by decide)
    (by decide) .empty
  rwa [String.append_empty] at this

/-- Words with a space in front of each. -/
theorem Spells.join {a : String} {u ws : List String} (h : Spells separator a u)
    (hw : ∀ w ∈ ws, IsWord separator w) :
    Spells separator (a ++ String.join (ws.map (" " ++ ·))) (u ++ ws) := by
  induction ws generalizing a u with
  | nil => simpa using h
  | cons w ws ih =>
    have hword := Spells.word (hw w List.mem_cons_self)
    have := ih (h.space hword) fun v hv => hw v (List.mem_cons_of_mem _ hv)
    rwa [List.append_assoc, List.singleton_append, String.append_assoc, String.append_assoc,
      ← @String.append_assoc " ", ← String.join_cons] at this

end

end Word

open Word (Spells IsSeparator)

/-! ## Modifiers -/

namespace Access

/-- The modifiers in the order in which they are written. -/
def marks (a : Access) : List Mark :=
  a.required.toList.map (Mark.mk · true) ++ a.forbidden.toList.map (Mark.mk · false)

theorem mem_marks {a : Access} {m : Modifier} {b : Bool} :
    ⟨m, b⟩ ∈ a.marks ↔ m ∈ if b then a.required else a.forbidden := by
  cases b <;> simp [marks, ModifierSet.mem_toList]

theorem ofMarks_marks (a : Access) : ofMarks a.marks = a :=
  ext_mem (fun m => by rw [mem_required_ofMarks, mem_marks]; rfl)
    (fun m => by rw [mem_forbidden_ofMarks, mem_marks]; rfl)

theorem print_eq (a : Access) : a.print = String.join ((a.marks.map Mark.word).map (" " ++ ·)) := by
  have hf : ∀ k : String, " !" ++ k = " " ++ ("!" ++ k) := by
    intro k
    rw [← String.append_assoc]
    rfl
  simp [print, marks, ModifierSet.keywords, Mark.word, Function.comp_def, hf]

theorem spells_print {separator : Char} (hs : IsSeparator separator) (a : Access) {t : String}
    {u : List String} (h : Spells separator t u) :
    Spells separator (t ++ a.print) (u ++ a.marks.map Mark.word) := by
  rw [print_eq]
  refine h.join fun w hw => ?_
  obtain ⟨m, -, rfl⟩ := List.mem_map.1 hw
  exact Word.isWord_mark hs m

theorem consistent_marks {a : Access} (h : a.Disjoint) : Mark.Consistent a.marks := by
  rw [← disjoint_ofMarks, ofMarks_marks]
  exact h

theorem modifier_mem_of_marks {a : Access} {m : Mark} (hm : m ∈ a.marks) :
    m.modifier ∈ a.mentioned := by
  obtain ⟨n, b⟩ := m
  have := mem_marks.1 hm
  rw [mentioned, ModifierSet.mem_union]
  cases b with
  | true => exact .inl this
  | false => exact .inr this

end Access

/-! ## Members -/

theorem ModifierSet.forField_subset_forMember {m : Modifier} (h : m ∈ forField) :
    m ∈ forMember := (mem_union ..).2 (.inl h)

theorem ModifierSet.forMethod_subset_forMember {m : Modifier} (h : m ∈ forMethod) :
    m ∈ forMember := (mem_union ..).2 (.inr h)

namespace Member

def fieldForm (m : Member) : MemberForm :=
  match m.name, m.descriptor with
  | some name, some d => .field ((Descriptor.externalType? d).getD d) name
  | _, _ => .anyField

def methodForm (m : Member) : MemberForm :=
  match m.name, m.descriptor.bind Descriptor.externalMethod? with
  | some name, some (result, arguments) =>
    if m.isConstructor && result == "void" then .constructor name arguments
    else .method result name arguments
  | _, _ => .anyMethod

/-- A field as it is written. -/
def fieldPhrase (m : Member) : MemberPhrase := ⟨m.access.marks, m.fieldForm⟩

/-- A method as it is written. -/
def methodPhrase (m : Member) : MemberPhrase := ⟨m.access.marks, m.methodForm⟩

/-- Indentation and modifiers, the words of the member and the closing semicolon. -/
theorem spells_line {separator : Char} (hs : IsSeparator separator) (a : Access) {pattern : String}
    {ws : List String} (h : Spells separator pattern ws) :
    Spells separator ("   " ++ a.print ++ " " ++ pattern ++ ";")
      (a.marks.map Mark.word ++ (ws ++ [";"])) := by
  have hindent : Spells separator "   " [] := ⟨by decide, by decide, rfl⟩
  have := ((a.spells_print hs hindent).space h).semicolon
  rwa [List.nil_append, List.append_assoc] at this

/-- Types between commas, in parentheses. -/
theorem spells_call {separator : Char} (hs : IsSeparator separator) {name : String}
    {arguments : List String} (hn : IsPatternWord name) (ha : ∀ a ∈ arguments, IsPatternWord a) :
    Spells separator (name ++ "(" ++ ",".intercalate arguments ++ ")")
      (name :: "(" :: arguments.intersperse "," ++ [")"]) := by
  have hargs : Spells separator (",".intercalate arguments) (arguments.intersperse ",") :=
    .commas fun a hm => Word.isWord_of_isPatternWord hs (ha a hm)
  have hname := Spells.word (Word.isWord_of_isPatternWord hs hn)
  have hopen := hname.delimiter (s := "(") (d := '(') rfl
    (by simp [Word.isDelimiter, Word.delimiters]) (by decide) (by decide) hargs
  have := hopen.delimiter (s := ")") (d := ')') rfl (by simp [Word.isDelimiter, Word.delimiters])
    (by decide) (by decide) .empty
  rwa [String.append_empty] at this

theorem valid_of_form {allowed : ModifierSet} {className : String} {a : Access} {f : MemberForm}
    (ha : a.Proper allowed) (hsub : ∀ m : Modifier, m ∈ allowed → m ∈ ModifierSet.forMember)
    (hf : f.Valid className a) : MemberPhrase.Valid className ⟨a.marks, f⟩ where
  marks k hk := hsub _ (ModifierSet.subset_iff.1 ha.allowed _ (Access.modifier_mem_of_marks hk))
  consistent := Access.consistent_marks ha.disjoint
  form := by
    show f.Valid className (.ofMarks a.marks)
    rw [Access.ofMarks_marks]
    exact hf

/-- A field is written as a valid phrase that says it again. -/
theorem fieldPhrase_spec {separator : Char} (hs : IsSeparator separator) {m : Member}
    (h : m.Proper .forField IsPatternWord Descriptor.IsFieldWritable) (className : String) :
    m.fieldPhrase.Valid className ∧ Spells separator m.fieldLine m.fieldPhrase.words ∧
      m.fieldPhrase.fields = [m] ∧ m.fieldPhrase.methods = [] := by
  obtain ⟨access, name, descriptor⟩ := m
  obtain ⟨ha, ⟨hn, hd⟩ | ⟨n, d, hn, hd, hw, t, ht, htype, rfl⟩⟩ := h <;> cases hn <;> cases hd
  · have hword := Word.isWord_of_keywordChars (w := "<fields>") hs (by decide) (by decide)
    refine ⟨valid_of_form ha (fun _ => ModifierSet.forField_subset_forMember) ha.allowed,
      spells_line hs access (.word hword), ?_, rfl⟩
    show [({ access := .ofMarks access.marks } : Member)] = _
    rw [Access.ofMarks_marks]
  · have hread := Descriptor.externalType?_of_readable
      (Identifier.readable_of_isPattern ht.pattern)
    have hform : fieldForm ⟨access, some n, some (Descriptor.internalType t)⟩ = .field t n := by
      simp [fieldForm, hread]
    have hline : fieldLine ⟨access, some n, some (Descriptor.internalType t)⟩ =
        "   " ++ access.print ++ " " ++ (t ++ " " ++ n) ++ ";" := by
      simp [fieldLine, hread]
    have hpattern := (Spells.word (Word.isWord_of_isPatternWord hs ht)).space
      (.word (Word.isWord_of_isPatternWord hs hw))
    unfold fieldPhrase
    rw [hform, hline]
    refine ⟨valid_of_form ha (fun _ => ModifierSet.forField_subset_forMember)
      ⟨htype, hw.pattern, ha.allowed⟩, spells_line hs access hpattern, ?_, rfl⟩
    show [({ access := .ofMarks access.marks, name := _, descriptor := _ } : Member)] = _
    rw [Access.ofMarks_marks]

/-- A method is written as a valid phrase that says it again. -/
theorem methodPhrase_spec {separator : Char} (hs : IsSeparator separator) {m : Member}
    (h : m.Proper .forMethod IsPatternWord Descriptor.IsMethodWritable) (className : String) :
    m.methodPhrase.Valid className ∧ Spells separator m.methodLine m.methodPhrase.words ∧
      m.methodPhrase.fields = [] ∧ m.methodPhrase.methods = [m] := by
  obtain ⟨access, name, descriptor⟩ := m
  obtain ⟨ha, ⟨hn, hd⟩ | ⟨n, d, hn, hd, hw, t, args, ht, htype, hargs, rfl⟩⟩ := h <;>
    cases hn <;> cases hd
  · have hword := Word.isWord_of_keywordChars (w := "<methods>") hs (by decide) (by decide)
    refine ⟨valid_of_form ha (fun _ => ModifierSet.forMethod_subset_forMember) ha.allowed,
      spells_line hs access (.word hword), rfl, ?_⟩
    show [({ access := .ofMarks access.marks } : Member)] = _
    rw [Access.ofMarks_marks]
  · have hread := Descriptor.externalMethod?_of_readable
      (Identifier.readable_of_isPattern ht.pattern)
      fun a hm => Identifier.readable_of_isPattern (hargs a hm).pattern
    have hvalid : ∀ f : MemberForm, f.Valid className access →
        MemberPhrase.Valid className ⟨access.marks, f⟩ :=
      fun f hf => valid_of_form ha (fun _ => ModifierSet.forMethod_subset_forMember) hf
    have hpat : ∀ a ∈ args, Identifier.isPattern a = true := fun a hm => (hargs a hm).pattern
    have hcall := spells_call hs hw hargs
    unfold methodPhrase
    by_cases hc : n = constructorName ∧ t = "void"
    · -- the result of a constructor is left out
      obtain ⟨rfl, rfl⟩ := hc
      have hform : methodForm ⟨access, some constructorName,
          some (Descriptor.internalMethod "void" args)⟩ = .constructor constructorName args := by
        simp [methodForm, hread, isConstructor]
      have hline : methodLine ⟨access, some constructorName,
          some (Descriptor.internalMethod "void" args)⟩ = "   " ++ access.print ++ " " ++
            (constructorName ++ "(" ++ ",".intercalate args ++ ")") ++ ";" := by
        simp [methodLine, hread, isConstructor]
      have htype : MemberForm.IsType constructorName := ⟨by decide, by decide, by decide⟩
      rw [hform, hline]
      refine ⟨hvalid _ ⟨htype, List.mem_cons_self, hpat, ha.allowed⟩, ?_, rfl, ?_⟩
      · have := spells_line hs access hcall
        simpa [MemberPhrase.words, MemberForm.head, MemberForm.tail] using this
      · show [({ access := .ofMarks access.marks, name := _, descriptor := _ } : Member)] = _
        rw [Access.ofMarks_marks]
    · have hcons : (isConstructor ⟨access, some n, some (Descriptor.internalMethod t args)⟩ &&
          t == "void") = false := by
        simpa [isConstructor] using hc
      have hform : methodForm ⟨access, some n, some (Descriptor.internalMethod t args)⟩ =
          .method t n args := by
        simp [methodForm, hread, hcons]
      have hline : methodLine ⟨access, some n, some (Descriptor.internalMethod t args)⟩ =
          "   " ++ access.print ++ " " ++
            (t ++ " " ++ (n ++ "(" ++ ",".intercalate args ++ ")")) ++ ";" := by
        simp [methodLine, hread, hcons]
      have hpattern := (Spells.word (Word.isWord_of_isPatternWord hs ht)).space hcall
      rw [hform, hline]
      refine ⟨hvalid _ ⟨htype, hw.pattern, hpat, ha.allowed⟩, ?_, rfl, ?_⟩
      · have := spells_line hs access hpattern
        simpa [MemberPhrase.words, MemberForm.head, MemberForm.tail] using this
      · show [({ access := .ofMarks access.marks, name := _, descriptor := _ } : Member)] = _
        rw [Access.ofMarks_marks]

end Member

/-! ## Rules -/

namespace Word

/-- Lines, each of which spells the words of a list. -/
inductive SpellsLines (separator : Char) : List String → List (List String) → Prop where
  | nil : SpellsLines separator [] []
  | cons {line : String} {lines : List String} {ws : List String} {wss : List (List String)} :
      Spells separator line ws → SpellsLines separator lines wss →
      SpellsLines separator (line :: lines) (ws :: wss)

namespace SpellsLines

variable {separator : Char}

theorem append {ls ls' : List String} {wss wss' : List (List String)}
    (h : SpellsLines separator ls wss) (h' : SpellsLines separator ls' wss') :
    SpellsLines separator (ls ++ ls') (wss ++ wss') := by
  induction h with
  | nil => exact h'
  | cons hl _ ih => exact .cons hl ih

theorem map {α : Type} {f : α → String} {g : α → List String} {as : List α}
    (h : ∀ a ∈ as, Spells separator (f a) (g a)) : SpellsLines separator (as.map f) (as.map g) := by
  induction as with
  | nil => exact .nil
  | cons a as ih =>
    exact .cons (h a List.mem_cons_self) (ih fun b hb => h b (List.mem_cons_of_mem _ hb))

theorem oneLine {ls : List String} {wss : List (List String)} (h : SpellsLines separator ls wss) :
    ∀ l ∈ ls, '\n' ∉ l.toList := by
  induction h with
  | nil => nofun
  | cons hl _ ih =>
    intro l hm
    rcases List.mem_cons.1 hm with rfl | hm
    · exact hl.oneLine
    · exact ih l hm

/-- What is read of the lines. -/
theorem readLine {ls : List String} {wss : List (List String)}
    (h : SpellsLines separator ls wss) :
    ls.map (Word.readLine separator) = wss.map fun ws => (ws, none) := by
  induction h with
  | nil => rfl
  | cons hl _ ih => rw [List.map_cons, List.map_cons, ih, hl.readLine]

end SpellsLines

end Word

open Word (SpellsLines)

namespace KeepRule

/-- The modifiers of the class, less the keyword that stands in front of its name. -/
def classAccess (a : Access) : Access where
  required := a.required \ .singleton .accInterface
  forbidden := a.forbidden \ .singleton .accInterface

def kind (a : Access) : ClassKind :=
  if .accInterface ∈ a.required then .ofInterface true
  else if .accInterface ∈ a.forbidden then .ofInterface false
  else .ofClass

/-- A rule as it is written. -/
def phrase (r : KeepRule) : RulePhrase where
  marks := (classAccess r.access).marks
  kind := kind r.access
  name := (r.className.map ClassName.toExternal).getD "*"
  parent := r.extendsName.map fun name => ("extends", ClassName.toExternal name)
  newName := r.asName.map ClassName.toExternal
  block :=
    if r.hasMembers then some (r.fields.map Member.fieldPhrase ++ r.methods.map Member.methodPhrase)
    else none

theorem members_phrase (r : KeepRule) :
    r.phrase.members = r.fields.map Member.fieldPhrase ++ r.methods.map Member.methodPhrase := by
  simp only [RulePhrase.members, phrase]
  split
  · rfl
  · next h =>
    have : r.fields = [] ∧ r.methods = [] := by simpa [hasMembers] using h
    simp [this.1, this.2]

theorem ofMarks_kind {a : Access} (h : a.Disjoint) :
    Access.ofMarks ((classAccess a).marks ++ (kind a).marks) = a := by
  have hd := Access.disjoint_iff.1 h .accInterface
  have hm : ∀ m b, ⟨m, b⟩ ∈ (classAccess a).marks ↔
      m ∈ (if b then a.required else a.forbidden) ∧ m ≠ .accInterface := by
    intro m b
    rw [Access.mem_marks]
    cases b <;> simp [classAccess]
  have hk : ∀ m b, ⟨m, b⟩ ∈ (kind a).marks ↔
      m = .accInterface ∧ m ∈ (if b then a.required else a.forbidden) := by
    intro m b
    unfold kind
    split
    · next hr =>
      have hf := hd hr
      cases b <;> simp [ClassKind.marks] <;> grind
    · next hr =>
      split
      · next hf => cases b <;> simp [ClassKind.marks] <;> grind
      · next hf => cases b <;> simp [ClassKind.marks] <;> grind
  refine Access.ext_mem (fun m => ?_) fun m => ?_
  · rw [Access.mem_required_ofMarks, List.mem_append, hm, hk]
    simp only [if_true]
    grind
  · rw [Access.mem_forbidden_ofMarks, List.mem_append, hm, hk]
    simp only [Bool.false_eq_true, if_false]
    grind

theorem name_phrase {r : KeepRule} (h : r.Printable) : IsPatternWord r.phrase.name := by
  cases hn : r.className with
  | none =>
    simp only [phrase, hn]
    decide
  | some name =>
    simp only [phrase, hn]
    exact (h.className name hn).word

theorem phrase_valid {separator : Char} (hs : IsSeparator separator) {r : KeepRule}
    (h : r.Printable) : r.phrase.Valid where
  marks m hm := by
    have hsub := ModifierSet.subset_iff.1 h.access.allowed
    have hmem := Access.modifier_mem_of_marks hm
    have hment : m.modifier ∈ r.access.mentioned ∧ m.modifier ≠ .accInterface := by
      simp only [classAccess, Access.mentioned, ModifierSet.mem_union, ModifierSet.mem_sdiff,
        ModifierSet.mem_singleton] at hmem ⊢
      grind
    exact (Modifier.mem_forClass.1 (hsub _ hment.1)).resolve_left hment.2
  consistent := by
    apply Access.consistent_marks
    apply Access.disjoint_iff.2
    have hd := Access.disjoint_iff.1 h.access.disjoint
    intro m hr hf
    exact hd m ((ModifierSet.mem_sdiff ..).1 hr).1 ((ModifierSet.mem_sdiff ..).1 hf).1
  name := (name_phrase h).pattern
  parent keyword name hp := by
    obtain ⟨n, hn, he⟩ := Option.map_eq_some_iff.1 hp
    cases he
    exact ⟨List.mem_cons_self, (h.extendsName n hn).word.pattern⟩
  newName name hp := by
    obtain ⟨n, hn, rfl⟩ := Option.map_eq_some_iff.1 hp
    exact (h.asName n hn).word.pattern
  members m hm := by
    rw [members_phrase] at hm
    rcases List.mem_append.1 hm with hm | hm
    · obtain ⟨f, hf, rfl⟩ := List.mem_map.1 hm
      exact (Member.fieldPhrase_spec hs (h.fields f hf) _).1
    · obtain ⟨f, hf, rfl⟩ := List.mem_map.1 hm
      exact (Member.methodPhrase_spec hs (h.methods f hf) _).1

/-- Class names are read back by their external form. -/
theorem map_toInternal {o : Option String} (h : ∀ name, o = some name → ClassName.IsWritable name) :
    (o.map ClassName.toExternal).map ClassName.toInternal = o := by
  cases o with
  | none => rfl
  | some name =>
    exact congrArg some (ClassName.toInternal_toExternal (h name rfl).dotless)

/-- Phrases that say one member each say the members in their order. -/
theorem flatMap_phrases {p : Member → MemberPhrase} {g : MemberPhrase → List Member}
    {ms : List Member} (h : ∀ m ∈ ms, g (p m) = [m]) : (ms.map p).flatMap g = ms := by
  induction ms with
  | nil => rfl
  | cons m ms ih =>
    rw [List.map_cons, List.flatMap_cons, h m List.mem_cons_self,
      ih fun k hk => h k (List.mem_cons_of_mem _ hk)]
    rfl

theorem flatMap_phrases_nil {p : Member → MemberPhrase} {g : MemberPhrase → List Member}
    {ms : List Member} (h : ∀ m ∈ ms, g (p m) = []) : (ms.map p).flatMap g = [] := by
  rw [List.flatMap_map]
  exact List.flatMap_eq_nil_iff.2 h

/-- The phrase of a rule says the rule, with whatever comments are read before it. -/
theorem rule_phrase {separator : Char} (hs : IsSeparator separator) {r : KeepRule}
    (h : r.Printable) (comments : Option String) :
    r.phrase.rule r.intent comments = { r with comments := comments } := by
  have hclass : (if r.phrase.name = "*" then none else some (ClassName.toInternal r.phrase.name)) =
      r.className := by
    cases hn : r.className with
    | none => simp [phrase, hn]
    | some name =>
      have hi := ClassName.toInternal_toExternal (h.className name hn).dotless
      have hname : r.phrase.name = ClassName.toExternal name := by simp [phrase, hn]
      have hne : ClassName.toExternal name ≠ "*" := by
        intro he
        apply h.notAny
        rw [hn, ← hi, he]
        decide
      rw [hname, if_neg hne, hi]
  have hfields : r.phrase.members.flatMap MemberPhrase.fields = r.fields := by
    have hf := fun f hf => (Member.fieldPhrase_spec hs (h.fields f hf) "").2.2.1
    have hm := fun f hf => (Member.methodPhrase_spec hs (h.methods f hf) "").2.2.1
    rw [members_phrase, List.flatMap_append, flatMap_phrases hf, flatMap_phrases_nil hm,
      List.append_nil]
  have hmethods : r.phrase.members.flatMap MemberPhrase.methods = r.methods := by
    have hf := fun f hf => (Member.fieldPhrase_spec hs (h.fields f hf) "").2.2.2
    have hm := fun f hf => (Member.methodPhrase_spec hs (h.methods f hf) "").2.2.2
    rw [members_phrase, List.flatMap_append, flatMap_phrases_nil hf, flatMap_phrases hm,
      List.nil_append]
  have hparent : (r.phrase.parent.map fun q => ClassName.toInternal q.2) = r.extendsName := by
    rw [← map_toInternal h.extendsName]
    simp [phrase, Function.comp_def]
  have hnew : r.phrase.newName.map ClassName.toInternal = r.asName := map_toInternal h.asName
  unfold RulePhrase.rule
  rw [hclass, hfields, hmethods, hparent, hnew]
  simp only [phrase, ofMarks_kind h.access.disjoint]

/-- The lines of a rule after its comments. -/
def directiveLines (r : KeepRule) : List String :=
  if r.hasMembers then
    [r.headLine ++ " \x7b"] ++ r.fields.map Member.fieldLine ++ r.methods.map Member.methodLine ++
      ["\x7d"]
  else [r.headLine]

theorem lines_eq (r : KeepRule) : r.lines = r.commentLines ++ r.directiveLines := rfl

/-- The words of the line with the keyword, less the brace that may end it. -/
def headWords (r : KeepRule) : List String :=
  r.intent.keyword :: (r.phrase.headWords ++ (RulePhrase.clauseWords r.phrase.parent ++
    RulePhrase.clauseWords (r.phrase.newName.map fun name => ("as", name))))

/-- The words of the lines after the comments, line by line. -/
def lineWords (r : KeepRule) : List (List String) :=
  if r.hasMembers then
    [r.headWords ++ ["\x7b"]] ++ r.fields.map (fun m => m.fieldPhrase.words) ++
      r.methods.map (fun m => m.methodPhrase.words) ++ [["\x7d"]]
  else [r.headWords]

theorem flatten_lineWords (r : KeepRule) :
    r.lineWords.flatten = r.intent.keyword :: r.phrase.words := by
  unfold lineWords headWords RulePhrase.words
  by_cases h : r.hasMembers = true
  · have hb : r.phrase.block =
        some (r.fields.map Member.fieldPhrase ++ r.methods.map Member.methodPhrase) := by
      simp [phrase, h]
    simp [h, hb, RulePhrase.blockWords, List.flatMap_def, Function.comp_def]
  · have hb : r.phrase.block = none := by simp [phrase, h]
    simp [h, hb, RulePhrase.blockWords]

theorem lineWords_eq_cons (r : KeepRule) :
    ∃ ws wss, r.lineWords = (r.intent.keyword :: ws) :: wss := by
  unfold lineWords headWords
  split
  · exact ⟨_, _, rfl⟩
  · exact ⟨_, _, rfl⟩

section
variable {separator : Char} (hs : IsSeparator separator)
include hs

theorem isWord_keyword (intent : KeepIntent) : Word.IsWord separator intent.keyword := by
  obtain ⟨a, b, c⟩ := intent
  apply Word.isWord_of_keywordChars hs
  · cases a <;> cases b <;> cases c <;> decide
  · cases a <;> cases b <;> cases c <;> decide

theorem isWord_kind (kind : ClassKind) : Word.IsWord separator kind.word := by
  cases kind with
  | ofClass => exact Word.isWord_of_keywordChars hs (by decide) (by decide)
  | ofInterface present => exact Word.isWord_mark hs _

theorem spells_clauseText {t keyword : String} {u : List String} {name : Option String}
    (h : Spells separator t u) (hk : Word.IsWord separator keyword)
    (hn : ∀ n, name = some n → ClassName.IsWritable n) :
    Spells separator (t ++ clauseText keyword name)
      (u ++ RulePhrase.clauseWords (name.map fun n => (keyword, ClassName.toExternal n))) := by
  cases name with
  | none => simpa [clauseText, RulePhrase.clauseWords] using h
  | some n =>
    have hword := Word.isWord_of_isPatternWord hs (hn n rfl).word
    have := (h.space (.word hk)).space (.word hword)
    simpa [clauseText, RulePhrase.clauseWords, String.append_assoc] using this

theorem spells_headLine {r : KeepRule} (h : r.Printable) :
    Spells separator r.headLine r.headWords := by
  have hkind : kindWord r.access = (kind r.access).word := by
    unfold kindWord kind
    split
    · rfl
    · split <;> rfl
  have hname := Word.isWord_of_isPatternWord hs (name_phrase h)
  have hmods := Access.spells_print hs (classAccess r.access)
    (.word (isWord_keyword hs r.intent))
  have hhead := (hmods.space (.word (isWord_kind hs (kind r.access)))).space (.word hname)
  have hext := spells_clauseText hs hhead
    (Word.isWord_of_keywordChars (w := "extends") hs (by decide) (by decide)) h.extendsName
  have has := spells_clauseText hs hext
    (Word.isWord_of_keywordChars (w := "as") hs (by decide) (by decide)) h.asName
  have hline : r.headLine = r.intent.keyword ++ (classAccess r.access).print ++ " " ++
      (kind r.access).word ++ " " ++ r.phrase.name ++ clauseText "extends" r.extendsName ++
      clauseText "as" r.asName := by
    rw [← hkind]
    rfl
  rw [hline]
  simpa [headWords, RulePhrase.headWords, phrase, Function.comp_def] using has

/-- The lines of a rule, after its comments, are written with the words of its phrase. -/
theorem spells_lines {r : KeepRule} (h : r.Printable) :
    SpellsLines separator r.directiveLines r.lineWords := by
  have hhead := spells_headLine hs h
  unfold directiveLines lineWords
  split
  · have hopen : Spells separator (r.headLine ++ " \x7b") (r.headWords ++ ["\x7b"]) := by
      have hbrace : Spells separator "\x7b" ["\x7b"] :=
        .word (Word.isWord_delimiter (d := '\x7b') rfl (by decide))
      have := hhead.space hbrace
      rwa [String.append_assoc] at this
    have hclose : Spells separator "\x7d" ["\x7d"] :=
      .word (Word.isWord_delimiter (d := '\x7d') rfl (by decide))
    have hfields : SpellsLines separator (r.fields.map Member.fieldLine)
        (r.fields.map fun m => m.fieldPhrase.words) :=
      .map fun m hm => (Member.fieldPhrase_spec hs (h.fields m hm) "").2.1
    have hmethods : SpellsLines separator (r.methods.map Member.methodLine)
        (r.methods.map fun m => m.methodPhrase.words) :=
      .map fun m hm => (Member.methodPhrase_spec hs (h.methods m hm) "").2.1
    exact (((SpellsLines.cons hopen .nil).append hfields).append hmethods).append
      (.cons hclose .nil)
  · exact .cons hhead .nil

end

end KeepRule

end KeepRules
