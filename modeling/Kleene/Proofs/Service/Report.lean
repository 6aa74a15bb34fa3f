import Kleene.Proofs.Automaton.Properties
import Kleene.Proofs.Expression.Words
import Kleene.Text.Encoding

/-!
# What a report looks like

`Diagnosed text code message` says for which cause no expression can be given for a description: the
number of the first cause and what its author is told. The causes are looked for in the lines one
after the other and then in the automaton, where the initial state comes first, the reachability of
all states second and the lack of choice last.

The main statement is `convertDescription_total`: every text has a report, an expression or a
diagnostic, the two cannot be taken for each other, and the characters of both are ASCII.
-/

set_option autoImplicit false

namespace Kleene

/-! ## Texts of ASCII characters -/

namespace Text

/-- All characters are ASCII characters. -/
def IsAscii (text : String) : Prop :=
  ∀ c ∈ text.toList, c.toNat < 128

instance (text : String) : Decidable (IsAscii text) :=
  decidable_of_iff (text.toList.all (fun c => c.toNat < 128) = true) (by simp [IsAscii])

/-- ASCII texts make an ASCII text together. -/
theorem IsAscii.append {text more : String} (h : IsAscii text) (hmore : IsAscii more) :
    IsAscii (text ++ more) := by
  intro c hc
  rw [String.toList_append, List.mem_append] at hc
  exact hc.elim (h c) (hmore c)

/-- Every half passes exactly if none is found that does not. -/
theorem findUnencodable_eq_none_iff {passes : Fin 2048 → Bool} {place : Nat} {list : List Point} :
    findUnencodable passes place list = none ↔ ∀ half, .half half ∈ list → passes half = true := by
  induction list generalizing place with
  | nil => simp [findUnencodable]
  | cons point rest ih =>
    cases point with
    | char c => simp [findUnencodable, ih]
    | half half =>
      by_cases hpasses : passes half = true
      · simp [findUnencodable, hpasses, ih]
      · simp [findUnencodable, hpasses]

/-- The mark of a half is no ASCII character. -/
theorem IsAscii.ne_mark {text : String} (h : IsAscii text) {c : Char} (hc : c ∈ text.toList) :
    c ≠ mark := by
  rintro rfl
  exact absurd (h mark hc) (by decide)

/-- ASCII characters stand for themselves. -/
theorem IsAscii.pointsOf_eq {text : String} (h : IsAscii text) :
    pointsOf text = text.toList.map .char := by
  have hchars : ∀ chars : List Char, (∀ c ∈ chars, c ≠ mark) →
      points chars = chars.map .char := by
    intro chars hchars
    induction chars with
    | nil => rfl
    | cons c rest ih =>
      obtain ⟨hc, hrest⟩ := List.forall_mem_cons.mp hchars
      rw [points_cons_of_ne rest hc, ih hrest, List.map_cons]
  exact hchars text.toList (fun c hc => h.ne_mark hc)

/-- ASCII characters are spelled by themselves. -/
theorem IsAscii.ofChars_eq {text : String} (h : IsAscii text) : ofChars text.toList = text := by
  have hone : ∀ c ∈ text.toList, (Point.char c).spell = [c] := fun c hc => if_neg (h.ne_mark hc)
  have hspell : (text.toList.map Point.char).flatMap Point.spell = text.toList := by
    rw [List.flatMap_map, List.flatMap_congr hone, List.flatMap_singleton']
  rw [ofChars, ofPoints, hspell, String.ofList_toList]

/-- A text of ASCII characters can be written. -/
theorem IsAscii.checkEncodable {text : String} (h : IsAscii text) :
    Text.checkEncodable (pointsOf text) = .ok () := by
  have hnone : findUnencodable (fun _ => false) 0 (text.toList.map .char) = none :=
    findUnencodable_eq_none_iff.mpr (by simp)
  rw [Text.checkEncodable, checkHalves, h.pointsOf_eq, hnone]

end Text

open Text Description

/-- The characters of names are ASCII characters. -/
theorem toNat_lt_of_isNameChar {c : Char} (h : isNameChar c = true) : c.toNat < 128 := by
  have hle : ∀ {d : Char}, c ≤ d → d.toNat < 128 → c.toNat < 128 := by
    intro d hcd hd
    have hvalue : c.toNat ≤ d.toNat := hcd
    omega
  rcases (isNameChar_iff c).mp h with ⟨-, h⟩ | ⟨-, h⟩ | ⟨-, h⟩ | rfl
  · exact hle h (by decide)
  · exact hle h (by decide)
  · exact hle h (by decide)
  · decide

/-- A number is written with ASCII characters. -/
theorem isAscii_toString (n : Nat) : IsAscii (toString n) := by
  intro c hc
  have hdigit : c.isDigit = true :=
    Nat.isDigit_of_mem_toDigits (by decide) (by decide) (Nat.toList_repr ▸ hc)
  exact toNat_lt_of_isNameChar (by simp [isNameChar, Char.isAlphanum, hdigit])

/-- A name is written with ASCII characters. -/
theorem Description.IsIdentifier.isAscii {name : String} (h : IsIdentifier name) : IsAscii name :=
  fun c hc => toNat_lt_of_isNameChar ((isNameChar_iff c).mpr (h.2 c hc))

namespace WordExpression

/-- An expression for readers is written with names and marks of the grammar. -/
theorem IsReading.isNameChar_or_mem {tree : Grammar.Reading WordAtom .alternation} {text : String}
    (h : IsReading tree text) {c : Char} (hc : c ∈ text.toList) :
    isNameChar c = true ∨ c ∈ ['(', ')', '|', '*', '\x7b', '\x7d'] := by
  rw [← h.written, Grammar.Reading.written, List.mem_flatMap] at hc
  obtain ⟨token, htoken, hc⟩ := hc
  cases token with
  | opening => exact .inr (by simp_all [tokenChars])
  | closing => exact .inr (by simp_all [tokenChars])
  | bar => exact .inr (by simp_all [tokenChars])
  | star => exact .inr (by simp_all [tokenChars])
  | atom a =>
    cases a with
    | nothing => exact .inr (by simp_all [tokenChars, WordAtom.chars])
    | run run => exact .inl ((isNameChar_iff c).mpr ((h.runs run htoken).2 c hc))

end WordExpression

/-! ## Why there is no expression -/

namespace Automaton

/-- From the state a move reads nothing, or two moves to different states read the same symbol. -/
def Branches (m : Automaton String) (source : String) : Prop :=
  (∃ target, m.HasMove source Name.epsilon target) ∨
    ∃ symbol target target', target ≠ target' ∧ m.HasMove source symbol target ∧
      m.HasMove source symbol target'

/-- All states can be reached from the given one. -/
def ReachesAll (m : Automaton String) (first : String) : Prop :=
  ∀ state ∈ m.states, ∃ word, m.Walk first word state

/-- No state has a choice exactly if there is none that branches. -/
theorem noChoice_iff_not_branches {m : Automaton String} (hbuilt : m.Built) :
    m.NoChoice ↔ ∀ source, ¬m.Branches source := by
  obtain ⟨l, hclosed, rfl⟩ := hbuilt.exists_listing
  rw [Listing.noChoice_automaton hclosed]
  simp only [Branches, Listing.hasMove_automaton hclosed]
  constructor
  · rintro ⟨hreads, hunique⟩ source
      (⟨target, hmove⟩ | ⟨symbol, target, target', hne, hmove, hmove'⟩)
    · exact hreads _ hmove rfl
    · exact hne (hunique _ hmove _ hmove' rfl rfl)
  · intro hnone
    refine ⟨?_, ?_⟩
    · rintro ⟨source, symbol, target⟩ hmove rfl
      exact hnone source (.inl ⟨target, hmove⟩)
    · rintro ⟨source, symbol, target⟩ hmove ⟨_, _, target'⟩ hmove' rfl rfl
      by_contra hne
      exact hnone source (.inr ⟨symbol, target, target', hne, hmove, hmove'⟩)

/-- An automaton is joint exactly if its initial state reaches all states. -/
theorem isJoint_iff_reachesAll {m : Automaton String} (hbuilt : m.Built) {first : String}
    (hfirst : m.initial = some first) : m.isJoint = true ↔ m.ReachesAll first := by
  rw [isJoint_iff_walks hbuilt, hfirst]
  simp [ReachesAll]

/-- An automaton without an initial state fails by this. -/
theorem validate_of_initial_eq_none {m : Automaton String} (hinitial : m.initial = none) :
    m.validate = .error .noInitialState := by
  simp [validate, hasInitialState, hinitial]

/-- An automaton whose initial state does not reach all states fails by this. -/
theorem validate_of_not_reachesAll {m : Automaton String} (hbuilt : m.Built) {first : String}
    (hfirst : m.initial = some first) (hunreached : ¬m.ReachesAll first) :
    m.validate = .error .disjoint := by
  rw [← isJoint_iff_reachesAll hbuilt hfirst] at hunreached
  simp [validate, hasInitialState, hfirst, hunreached]

/-- An automaton fails by a state that branches if nothing else is wrong with it. -/
theorem validate_of_branches {m : Automaton String} (hbuilt : m.Built) {first source : String}
    (hfirst : m.initial = some first) (hreached : m.ReachesAll first)
    (hbranches : m.Branches source) :
    ∃ state, m.validate = .error (.nondeterministic (some state)) := by
  have hjoint := (isJoint_iff_reachesAll hbuilt hfirst).mpr hreached
  have hchoice : m.nondeterministicState ≠ none := by
    rw [Ne, nondeterministicState_eq_none_iff, noChoice_iff_not_branches hbuilt]
    exact fun hnone => hnone source hbranches
  obtain ⟨state, hstate⟩ := Option.ne_none_iff_exists'.mp hchoice
  exact ⟨state, by simp [validate, hasInitialState, hfirst, hjoint, hstate]⟩

end Automaton

/-- The first cause for which there is no expression for a description, by its number and what the
author of the description is told. -/
inductive Diagnosed (text : String) : Nat → String → Prop
  | malformed {n : Nat} {before : List (Operation String)} {problem : Malformation} (hn : n < 5)
      (hbefore : Passes (splitLines text.toList) n before)
      (hfails : Fails (splitLines text.toList) n before (.malformed problem)) :
    Diagnosed text 0 "Input file is malformed"
  | noSuchState {n : Nat} {before : List (Operation String)} {state : String} (hn : n < 5)
      (hbefore : Passes (splitLines text.toList) n before)
      (hfails : Fails (splitLines text.toList) n before (.noSuchState state)) :
    Diagnosed text 1 ("A state '" ++ state ++ "' is not in the set of states")
  | noSuchSymbol {n : Nat} {before : List (Operation String)} {symbol : String} (hn : n < 5)
      (hbefore : Passes (splitLines text.toList) n before)
      (hfails : Fails (splitLines text.toList) n before (.noSuchSymbol symbol)) :
    Diagnosed text 3 ("A transition '" ++ symbol ++ "' is not represented in the alphabet")
  | noInitialState {m : Automaton String} (hread : Automaton.ofDescription text = .ok m)
      (hinitial : m.initial = none) :
    Diagnosed text 4 "Initial state is not defined"
  | disjoint {m : Automaton String} {first : String}
      (hread : Automaton.ofDescription text = .ok m) (hinitial : m.initial = some first)
      (hunreached : ¬m.ReachesAll first) :
    Diagnosed text 2 "Some states are disjoint"
  | nondeterministic {m : Automaton String} {first source : String}
      (hread : Automaton.ofDescription text = .ok m) (hinitial : m.initial = some first)
      (hreached : m.ReachesAll first) (hbranches : m.Branches source) :
    Diagnosed text 5 "FSA is nondeterministic"

namespace Diagnosed

variable {text : String}

/-- A description has an automaton that can be converted, or it has a diagnosis. -/
theorem valid_or_diagnosed (text : String) :
    (∃ m : Automaton String, Automaton.ofDescription text = .ok m ∧ m.validate = .ok ()) ∨
      ∃ code message, Diagnosed text code message := by
  cases hread : (Automaton.ofDescription text : Except (Failure String) (Automaton String)) with
  | error failure =>
    obtain ⟨n, hn, before, hbefore, hfails⟩ := Automaton.ofDescription_eq_error_iff.mp hread
    rcases hfails.cause with ⟨problem, rfl⟩ | ⟨state, rfl⟩ | ⟨symbol, rfl⟩
    · exact .inr ⟨_, _, .malformed hn hbefore hfails⟩
    · exact .inr ⟨_, _, .noSuchState hn hbefore hfails⟩
    · exact .inr ⟨_, _, .noSuchSymbol hn hbefore hfails⟩
  | ok m =>
    have hbuilt := Automaton.built_of_ofDescription hread
    cases hinitial : m.initial with
    | none => exact .inr ⟨_, _, .noInitialState hread hinitial⟩
    | some first =>
      by_cases hreached : m.ReachesAll first
      · by_cases hbranches : ∃ source, m.Branches source
        · obtain ⟨source, hsource⟩ := hbranches
          exact .inr ⟨_, _, .nondeterministic hread hinitial hreached hsource⟩
        · refine .inl ⟨m, rfl, (Automaton.validate_eq_ok_iff m).mpr ⟨by simp [hinitial], ?_, ?_⟩⟩
          · exact (Automaton.isJoint_iff_reachesAll hbuilt hinitial).mpr hreached
          · exact (Automaton.noChoice_iff_not_branches hbuilt).mpr (not_exists.mp hbranches)
      · exact .inr ⟨_, _, .disjoint hread hinitial hreached⟩

/-- The report on a description with a diagnosis. -/
theorem report_eq {code : Nat} {message : String} (h : Diagnosed text code message) :
    convertDescription text = .ok ("Error:\nE" ++ toString code ++ ": " ++ message) := by
  have hfailed : ∀ {failure : Failure String},
      (Automaton.ofDescription text : Except _ (Automaton String)) = .error failure →
        convertDescription text = reportOf (.error failure) := by
    intro failure hread
    rw [convertDescription, hread]
    rfl
  have hinvalid : ∀ {m : Automaton String} {failure : Failure String},
      Automaton.ofDescription text = .ok m → m.validate = .error failure →
        convertDescription text = reportOf (.error failure) := by
    intro m failure hread hvalidate
    rw [convertDescription, hread]
    show reportOf (m.expression .words) = _
    rw [Automaton.expression, hvalidate]
    rfl
  cases h with
  | malformed hn hbefore hfails =>
    exact hfailed (Automaton.ofDescription_eq_error_iff.mpr ⟨_, hn, _, hbefore, hfails⟩)
  | noSuchState hn hbefore hfails =>
    exact hfailed (Automaton.ofDescription_eq_error_iff.mpr ⟨_, hn, _, hbefore, hfails⟩)
  | noSuchSymbol hn hbefore hfails =>
    exact hfailed (Automaton.ofDescription_eq_error_iff.mpr ⟨_, hn, _, hbefore, hfails⟩)
  | noInitialState hread hinitial =>
    exact hinvalid hread (Automaton.validate_of_initial_eq_none hinitial)
  | disjoint hread hinitial hunreached =>
    exact hinvalid hread (Automaton.validate_of_not_reachesAll
      (Automaton.built_of_ofDescription hread) hinitial hunreached)
  | nondeterministic hread hinitial hreached hbranches =>
    obtain ⟨state, hstate⟩ := Automaton.validate_of_branches
      (Automaton.built_of_ofDescription hread) hinitial hreached hbranches
    exact hinvalid hread hstate

/-- What is quoted of a description in a diagnostic is a name. -/
theorem isAscii_message {code : Nat} {message : String} (h : Diagnosed text code message) :
    IsAscii message := by
  have hquoted : ∀ {front name back : String}, IsAscii front → IsIdentifier name → IsAscii back →
      IsAscii (front ++ name ++ back) :=
    fun hfront hname hback => (hfront.append hname.isAscii).append hback
  cases h with
  | malformed => simp [IsAscii]
  | noSuchState _ _ hfails =>
    obtain ⟨_, hcause⟩ | ⟨state, hname, hcause⟩ | ⟨_, -, hcause⟩ := hfails.named_cause
    · cases hcause
    · cases hcause
      exact hquoted (by simp [IsAscii]) hname (by simp [IsAscii])
    · cases hcause
  | noSuchSymbol _ _ hfails =>
    obtain ⟨_, hcause⟩ | ⟨_, -, hcause⟩ | ⟨symbol, hname, hcause⟩ := hfails.named_cause
    · cases hcause
    · cases hcause
    · cases hcause
      exact hquoted (by simp [IsAscii]) hname (by simp [IsAscii])
  | noInitialState => simp [IsAscii]
  | disjoint => simp [IsAscii]
  | nondeterministic => simp [IsAscii]

end Diagnosed

/-- The report on a description of a valid automaton is its expression on a line of its own. It
holds no colon, as every diagnostic does. -/
theorem exists_expression_report {text : String} {m : Automaton String}
    (hread : Automaton.ofDescription text = .ok m) (hvalid : m.validate = .ok ()) :
    ∃ expression, m.expression .words = .ok expression ∧
      convertDescription text = .ok (expression ++ "\n") ∧ IsAscii (expression ++ "\n") ∧
      ':' ∉ (expression ++ "\n").toList := by
  have hbuilt := Automaton.built_of_ofDescription hread
  have hexpression := Automaton.expression_eq_spellWhole hbuilt hvalid .words
  have hlabels : ∀ tree ∈ m.pathTrees, ∀ label ∈ tree.labels, IsIdentifier label := by
    intro tree htree label hlabel
    obtain ⟨-, hmem⟩ := Automaton.mem_alphabet_of_mem_labels hbuilt hvalid htree hlabel
    exact Automaton.isIdentifier_of_mem_alphabet hread hmem
  have hreading := WordExpression.isReading_whole hlabels
  refine ⟨_, hexpression, ?_, IsAscii.append ?_ (by simp [IsAscii]), ?_⟩
  · rw [convertDescription, hread]
    show reportOf (m.expression .words) = _
    rw [hexpression]
    rfl
  · intro c hc
    rcases hreading.isNameChar_or_mem hc with hname | hmark
    · exact toNat_lt_of_isNameChar hname
    · fin_cases hmark <;> decide
  · rw [String.toList_append, List.mem_append, not_or]
    refine ⟨fun hcolon => ?_, by decide⟩
    rcases hreading.isNameChar_or_mem hcolon with hname | hmark
    · exact absurd hname (by decide)
    · exact absurd hmark (by decide)

/-- Every text has a report. If the text describes an automaton that can be converted, the report is
its expression and a line break, and it does not begin as a diagnostic does; otherwise it is the
diagnostic of the first cause. All its characters are ASCII, so that it can be written. -/
theorem convertDescription_total (text : String) :
    ∃ report, convertDescription text = .ok report ∧
      (∀ m : Automaton String, Automaton.ofDescription text = .ok m → m.validate = .ok () →
        ∃ expression, m.expression .words = .ok expression ∧ report = expression ++ "\n" ∧
          ¬"Error:".toList <+: report.toList) ∧
      (∀ code message, Diagnosed text code message →
        report = "Error:\nE" ++ toString code ++ ": " ++ message) ∧
      ((∃ m : Automaton String, Automaton.ofDescription text = .ok m ∧ m.validate = .ok ()) ↔
        ¬∃ code message, Diagnosed text code message) ∧
      IsAscii report ∧ checkEncodable (pointsOf report) = .ok () := by
  -- a report cannot be an expression and a diagnostic at once
  have hexclude : ∀ {m : Automaton String} {code : Nat} {message : String},
      Automaton.ofDescription text = .ok m → m.validate = .ok () →
        ¬Diagnosed text code message := by
    intro m code message hread hvalid hdiagnosed
    obtain ⟨expression, -, hreport, -, hcolon⟩ := exists_expression_report hread hvalid
    have hsame := Except.ok.inj (hreport.symm.trans hdiagnosed.report_eq)
    exact hcolon (by simp [hsame])
  rcases Diagnosed.valid_or_diagnosed text with ⟨m, hread, hvalid⟩ | ⟨code, message, hdiagnosed⟩
  · obtain ⟨expression, hexpression, hreport, hascii, hcolon⟩ :=
      exists_expression_report hread hvalid
    refine ⟨_, hreport, ?_, ?_, ?_, hascii, hascii.checkEncodable⟩
    · intro m' hread' _
      obtain rfl := Except.ok.inj (hread.symm.trans hread')
      exact ⟨expression, hexpression, rfl, fun hfront => hcolon (hfront.subset (by simp))⟩
    · intro code message hdiagnosed
      exact absurd hdiagnosed (hexclude hread hvalid)
    · exact iff_of_true ⟨m, hread, hvalid⟩
        (fun ⟨_, _, hdiagnosed⟩ => hexclude hread hvalid hdiagnosed)
  · have hascii : IsAscii ("Error:\nE" ++ toString code ++ ": " ++ message) := by
      refine IsAscii.append (IsAscii.append (IsAscii.append ?_ (isAscii_toString code)) ?_)
        hdiagnosed.isAscii_message
      · simp [IsAscii]
      · simp [IsAscii]
    refine ⟨_, hdiagnosed.report_eq, ?_, ?_, ?_, hascii, hascii.checkEncodable⟩
    · intro m hread hvalid
      exact absurd hdiagnosed (hexclude hread hvalid)
    · intro code' message' hdiagnosed'
      exact Except.ok.inj (hdiagnosed.report_eq.symm.trans hdiagnosed'.report_eq)
    · exact iff_of_false (fun ⟨m, hread, hvalid⟩ => hexclude hread hvalid hdiagnosed)
        (fun hnone => hnone ⟨code, message, hdiagnosed⟩)

-- a description whose automaton is converted, and the same one with a move by an unknown symbol
set_option maxRecDepth 2000 in
example : convertDescription "states=[q]\nalpha=[a]\ninitial=[q]\naccepting=[q]\ntrans=[q>a>q]" =
    .ok "(a|eps)(a|eps)*(a|eps)|(a|eps)\n" := by
  have hread : (Automaton.ofDescription
      "states=[q]\nalpha=[a]\ninitial=[q]\naccepting=[q]\ntrans=[q>a>q]" :
        Except (Failure String) (Automaton String)) =
      .ok { graph := { vertices := ["q"], rows := [[["a"]]] },
            alphabet := ["a"], initial := some "q", accepting := ["q"] } := by
    decide
  rw [convertDescription, hread]
  decide

set_option maxRecDepth 2000 in
example : convertDescription "states=[q]\nalpha=[a]\ninitial=[q]\naccepting=[q]\ntrans=[q>b>q]" =
    .ok "Error:\nE3: A transition 'b' is not represented in the alphabet" := by
  decide

end Kleene
