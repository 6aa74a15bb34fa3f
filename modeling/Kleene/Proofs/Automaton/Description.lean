import Kleene.Proofs.Automaton.History
import Kleene.Proofs.Automaton.Lines

/-!
# What a description is read as

A description is read line by line, and the calls of a line are made before the next line is looked
at. `Description.Passes lines n l` says that the first `n` lines have their forms and list `l`
without fault, `Description.Fails lines n l failure` why the line after them is refused.

The main statement is `ofDescription_reads_sheet`. A text is accepted exactly if its first five
lines are those of a sheet that names only its own states and symbols, and then it is the automaton
of this sheet. Otherwise the failure is that of the first line that has one.
-/

set_option autoImplicit false

namespace Kleene

namespace Description

/-- The calls of the line with a number, or why there are none. -/
def readLine (lines : List (List Char)) (n : Nat) :
    Except (Failure String) (List (Operation String)) :=
  match lines[n - 1]? with
  | none => .error (.malformed (.missingLine n))
  | some line => match lineCalls? line n with
    | none => .error (.malformed (.badLine n (String.ofList line)))
    | some calls => .ok calls

/-- The automaton after the calls of the first lines. -/
def readUpTo (lines : List (List Char)) : Nat → Except (Failure String) (Automaton String)
  | 0 => .ok Automaton.empty
  | n + 1 => do
    let m ← readUpTo lines n
    let calls ← readLine lines (n + 1)
    calls.foldlM Operation.apply m

/-- The calls of a line are what is made of the value that its field is read as, with the same
failures. -/
theorem readLine_eq_map {α : Type} {n : Nat} {key : String} {read? : List Char → Option α}
    {calls : α → List (Operation String)}
    (h : ∀ line, lineCalls? line n = ((content? key line).bind read?).map calls)
    (lines : List (List Char)) : readLine lines n = calls <$> field lines n key read? := by
  rw [field, readLine]
  cases lines[n - 1]? with
  | none => rfl
  | some line =>
    simp only [h]
    cases (content? key line).bind read? <;> rfl

/-- The first lines have their forms and stand for the given calls, none of which has a fault. -/
inductive Passes (lines : List (List Char)) : Nat → List (Operation String) → Prop
  | none : Passes lines 0 []
  | next {n : Nat} {before calls : List (Operation String)} {line : List Char}
      (hbefore : Passes lines n before) (hline : lines[n]? = some line)
      (hreads : ReadsLine (n + 1) line calls)
      (hfault : (Listing.ofCalls before).firstFault? calls = .none) :
    Passes lines (n + 1) (before ++ calls)

/-- Why the line after the first `n` lines is refused, if these stand for the calls before it: it is
missing, it has not its form, or one of its calls has a fault, the first of which counts. -/
inductive Fails (lines : List (List Char)) (n : Nat) (before : List (Operation String)) :
    Failure String → Prop
  | missing (hline : lines[n]? = none) : Fails lines n before (.malformed (.missingLine (n + 1)))
  | badLine {line : List Char} (hline : lines[n]? = some line)
      (hform : ∀ calls, ¬ ReadsLine (n + 1) line calls) :
    Fails lines n before (.malformed (.badLine (n + 1) (String.ofList line)))
  | refused {line : List Char} {calls : List (Operation String)} {fault : Failure String}
      (hline : lines[n]? = some line) (hreads : ReadsLine (n + 1) line calls)
      (hfault : (Listing.ofCalls before).firstFault? calls = some fault) :
    Fails lines n before fault

/-- The calls of a line are made with names. -/
theorem ReadsLine.isIdentifier {n : Nat} {line : List Char} {calls : List (Operation String)}
    (h : ReadsLine n line calls) {op : Operation String} (hop : op ∈ calls) :
    ∀ name ∈ op.names, IsIdentifier name := by
  cases h with
  | states _ hnames =>
    obtain ⟨name, hname, rfl⟩ := List.mem_map.mp hop
    simpa [Operation.names] using hnames name hname
  | alphabet _ hnames =>
    obtain ⟨name, hname, rfl⟩ := List.mem_map.mp hop
    simpa [Operation.names] using hnames name hname
  | initial hname =>
    obtain ⟨name, hmem, rfl⟩ := List.mem_map.mp hop
    simpa [Operation.names] using hname name (Option.mem_toList.mp hmem)
  | accepting hnames =>
    obtain ⟨name, hname, rfl⟩ := List.mem_map.mp hop
    simpa [Operation.names] using hnames name hname
  | moves _ hentries =>
    obtain ⟨e, he, rfl⟩ := List.mem_map.mp hop
    simpa [Operation.names, Entry.call, Entry.IsNamed] using hentries e he

/-- A line is refused for its form, or for a state or a symbol that it names and that is not
registered. -/
theorem Fails.named_cause {lines : List (List Char)} {n : Nat} {before : List (Operation String)}
    {failure : Failure String} (h : Fails lines n before failure) :
    (∃ problem, failure = .malformed problem) ∨
      (∃ state, IsIdentifier state ∧ failure = .noSuchState state) ∨
        ∃ symbol, IsIdentifier symbol ∧ failure = .noSuchSymbol symbol := by
  cases h with
  | missing => exact .inl ⟨_, rfl⟩
  | badLine => exact .inl ⟨_, rfl⟩
  | refused _ hreads hfault =>
    obtain ⟨_, op, hop, hfault⟩ := Listing.exists_fault?_of_firstFault? hfault
    have hnames := hreads.isIdentifier hop
    rcases Listing.fault?_eq_some hfault with ⟨state, hmem, -, rfl⟩ | ⟨symbol, hmem, -, -, rfl⟩
    · exact .inr (.inl ⟨state, hnames state hmem, rfl⟩)
    · exact .inr (.inr ⟨symbol, hnames symbol hmem, rfl⟩)

/-- A line fails by its form, or by a state or a symbol that is not registered. -/
theorem Fails.cause {lines : List (List Char)} {n : Nat} {before : List (Operation String)}
    {failure : Failure String} (h : Fails lines n before failure) :
    (∃ problem, failure = .malformed problem) ∨ (∃ state, failure = .noSuchState state) ∨
      ∃ symbol, failure = .noSuchSymbol symbol := by
  rcases h.named_cause with hproblem | ⟨state, -, hstate⟩ | ⟨symbol, -, hsymbol⟩
  · exact .inl hproblem
  · exact .inr (.inl ⟨state, hstate⟩)
  · exact .inr (.inr ⟨symbol, hsymbol⟩)

/-- Lines that pass list only states and symbols of their own. -/
theorem Passes.closed {lines : List (List Char)} {n : Nat} {calls : List (Operation String)}
    (h : Passes lines n calls) : (Listing.ofCalls calls).Closed := by
  induction h with
  | none => exact Listing.closed_empty
  | next _ _ _ hfault ih =>
    rw [Listing.ofCalls_append]
    exact ih.addAll hfault

/-- Lines that pass stand for the automaton that their calls build up. -/
theorem Passes.replay_eq {lines : List (List Char)} {n : Nat} {calls : List (Operation String)}
    (h : Passes lines n calls) :
    Automaton.replay calls = (Listing.ofCalls calls).automaton := by
  induction h with
  | none => rfl
  | next hbefore _ _ hfault ih =>
    rw [Automaton.replay, List.foldl_append, ← Automaton.replay, ih, Listing.ofCalls_append,
      Automaton.foldl_after_automaton hbefore.closed hfault]

/-- A line that is there and has its form is read as the calls that it stands for. -/
theorem ReadsLine.readLine_eq {lines : List (List Char)} {n : Nat} {line : List Char}
    {calls : List (Operation String)} (h : ReadsLine (n + 1) line calls)
    (hline : lines[n]? = some line) : readLine lines (n + 1) = .ok calls := by
  rw [readLine, Nat.add_sub_cancel, hline]
  simp only [lineCalls?_eq_some.mpr h]

/-- A line that is there and does not have its form is reported by its number and its text. -/
theorem readLine_of_not_reads {lines : List (List Char)} {n : Nat} {line : List Char}
    (hform : ∀ calls, ¬ ReadsLine (n + 1) line calls) (hline : lines[n]? = some line) :
    readLine lines (n + 1) = .error (.malformed (.badLine (n + 1) (String.ofList line))) := by
  have hread : lineCalls? line (n + 1) = none := by
    rw [Option.eq_none_iff_forall_ne_some]
    intro calls hcalls
    exact hform calls (lineCalls?_eq_some.mp hcalls)
  rw [readLine, Nat.add_sub_cancel, hline]
  simp only [hread]

/-- After lines that pass, the next line is read and its calls are made on the automaton so far. -/
theorem readUpTo_succ {lines : List (List Char)} {n : Nat} {before : List (Operation String)}
    (hbefore : Passes lines n before)
    (hread : readUpTo lines n = .ok (Listing.ofCalls before).automaton) :
    readUpTo lines (n + 1) = match readLine lines (n + 1) with
      | .error failure => .error failure
      | .ok calls => match (Listing.ofCalls before).firstFault? calls with
        | some fault => .error fault
        | none => .ok (Listing.ofCalls (before ++ calls)).automaton := by
  rw [readUpTo, hread]
  cases readLine lines (n + 1) with
  | error failure => rfl
  | ok calls =>
    simp only [Listing.ofCalls_append]
    exact Listing.foldlM_apply_automaton hbefore.closed calls

/-- Lines that pass are read as the automaton that their calls list. -/
theorem Passes.readUpTo_eq {lines : List (List Char)} {n : Nat}
    {calls : List (Operation String)} (h : Passes lines n calls) :
    readUpTo lines n = .ok (Listing.ofCalls calls).automaton := by
  induction h with
  | none => rfl
  | next hbefore hline hreads hfault ih =>
    rw [readUpTo_succ hbefore ih, hreads.readLine_eq hline]
    simp only [hfault]

/-- After lines that pass a line that is refused is the failure. -/
theorem Fails.readUpTo_eq {lines : List (List Char)} {n : Nat}
    {before : List (Operation String)} {failure : Failure String}
    (h : Fails lines n before failure) (hbefore : Passes lines n before) :
    readUpTo lines (n + 1) = .error failure := by
  rw [readUpTo_succ hbefore hbefore.readUpTo_eq]
  cases h with
  | missing hline => rw [readLine, Nat.add_sub_cancel, hline]
  | badLine hline hform => rw [readLine_of_not_reads hform hline]
  | refused hline hreads hfault =>
    rw [hreads.readLine_eq hline]
    simp only [hfault]

/-- The first lines pass, or one of them is the first that is refused. -/
theorem passes_or_fails (lines : List (List Char)) (n : Nat) :
    (∃ calls, Passes lines n calls) ∨
      ∃ k < n, ∃ before failure, Passes lines k before ∧ Fails lines k before failure := by
  induction n with
  | zero => exact .inl ⟨[], .none⟩
  | succ n ih =>
    rcases ih with ⟨before, hbefore⟩ | ⟨k, hk, hfails⟩
    · cases hline : lines[n]? with
      | none => exact .inr ⟨n, by omega, before, _, hbefore, .missing hline⟩
      | some line =>
        by_cases hform : ∃ calls, ReadsLine (n + 1) line calls
        · obtain ⟨calls, hreads⟩ := hform
          cases hfault : (Listing.ofCalls before).firstFault? calls with
          | none => exact .inl ⟨_, .next hbefore hline hreads hfault⟩
          | some fault =>
            exact .inr ⟨n, by omega, before, fault, hbefore, .refused hline hreads hfault⟩
        · exact .inr ⟨n, by omega, before, _, hbefore,
            .badLine hline (fun calls hreads => hform ⟨calls, hreads⟩)⟩
    · exact .inr ⟨k, by omega, hfails⟩

/-- A failure at some line stays the failure however many lines are read. -/
theorem readUpTo_error_mono {lines : List (List Char)} {k n : Nat} {failure : Failure String}
    (hkn : k ≤ n) (h : readUpTo lines k = .error failure) : readUpTo lines n = .error failure := by
  induction hkn with
  | refl => exact h
  | step _ ih =>
    rw [readUpTo, ih]
    rfl

/-- Lines are read as an automaton exactly if they pass. -/
theorem readUpTo_eq_ok_iff {lines : List (List Char)} {n : Nat} {m : Automaton String} :
    readUpTo lines n = .ok m ↔
      ∃ calls, Passes lines n calls ∧ m = (Listing.ofCalls calls).automaton := by
  constructor
  · intro h
    rcases passes_or_fails lines n with ⟨calls, hpasses⟩ | ⟨k, hk, before, failure, hpasses, hfails⟩
    · rw [hpasses.readUpTo_eq] at h
      exact ⟨calls, hpasses, (Except.ok.inj h).symm⟩
    · rw [readUpTo_error_mono hk (hfails.readUpTo_eq hpasses)] at h
      cases h
  · rintro ⟨calls, hpasses, rfl⟩
    exact hpasses.readUpTo_eq

/-- Lines are refused for the first of them that is. -/
theorem readUpTo_eq_error_iff {lines : List (List Char)} {n : Nat} {failure : Failure String} :
    readUpTo lines n = .error failure ↔
      ∃ k < n, ∃ before, Passes lines k before ∧ Fails lines k before failure := by
  constructor
  · intro h
    rcases passes_or_fails lines n with ⟨calls, hpasses⟩ | ⟨k, hk, before, other, hpasses, hfails⟩
    · rw [hpasses.readUpTo_eq] at h
      cases h
    · rw [readUpTo_error_mono hk (hfails.readUpTo_eq hpasses)] at h
      cases h
      exact ⟨k, hk, before, hpasses, hfails⟩
  · rintro ⟨k, hk, before, hpasses, hfails⟩
    exact readUpTo_error_mono hk (hfails.readUpTo_eq hpasses)

/-! ## The five lines together -/

/-- The move of an entry. -/
def Entry.move (e : Entry) : Move String :=
  ⟨e.source, e.symbol, e.target⟩

/-- What five lines hold: for each line its names, or its entries, as they are written. -/
structure Sheet where
  states : List String
  symbols : List String
  initial : Option String
  accepting : List String
  entries : List (Option Entry)

namespace Sheet

/-- The five lines as they are written. -/
def lines (sheet : Sheet) : List (List Char) :=
  [lineText "states" (String.intercalate "," sheet.states),
    lineText "alpha" (String.intercalate "," sheet.symbols),
    lineText "initial" (sheet.initial.getD ""),
    lineText "accepting" (String.intercalate "," sheet.accepting),
    lineText "trans" (String.intercalate "," (sheet.entries.map entryText))]

/-- What the five lines list; empty entries list nothing. -/
def listing (sheet : Sheet) : Listing String where
  states := sheet.states
  symbols := sheet.symbols
  initial := sheet.initial
  accepting := sheet.accepting
  moves := (sheet.entries.filterMap id).map Entry.move

/-- A sheet of names, with at least one state, one symbol and one entry, which may be empty. -/
structure WellFormed (sheet : Sheet) : Prop where
  states_ne_nil : sheet.states ≠ []
  symbols_ne_nil : sheet.symbols ≠ []
  entries_ne_nil : sheet.entries ≠ []
  states : ∀ name ∈ sheet.states, IsIdentifier name
  symbols : ∀ name ∈ sheet.symbols, IsIdentifier name
  initial : ∀ name ∈ sheet.initial, IsIdentifier name
  accepting : ∀ name ∈ sheet.accepting, IsIdentifier name
  entries : ∀ e ∈ sheet.entries.filterMap id, e.IsNamed

/-- The calls of the five lines, line by line. -/
def calls (sheet : Sheet) : List (Operation String) :=
  [] ++ sheet.states.map .addState ++ sheet.symbols.map .addSymbol ++
    sheet.initial.toList.map .setInitial ++ sheet.accepting.map .addAccepting ++
    (sheet.entries.filterMap id).map Entry.call

/-- The calls that a sheet stands for are those of its listing, in the order of its lines. -/
theorem calls_eq (sheet : Sheet) : sheet.calls = sheet.listing.calls := by
  simp [calls, listing, Listing.calls, Listing.namingCalls, Listing.referringCalls,
    Function.comp_def, Entry.call, Entry.move]

/-- The calls of a sheet name what the sheet lists. -/
theorem ofCalls_calls (sheet : Sheet) : Listing.ofCalls sheet.calls = sheet.listing := by
  rw [calls_eq, Listing.ofCalls_calls]

/-- The calls of the lines have no fault if the lines name only states and symbols of their own. -/
theorem passes_calls {sheet : Sheet} (hform : sheet.WellFormed) (hclosed : sheet.listing.Closed)
    (rest : List (List Char)) : Passes (sheet.lines ++ rest) 5 sheet.calls := by
  have hfault := hclosed.firstFault?_calls
  rw [← calls_eq] at hfault
  simp only [calls, Listing.firstFault?_append_eq_none] at hfault
  obtain ⟨⟨⟨⟨⟨-, hstates⟩, hsymbols⟩, hinitial⟩, haccepting⟩, hmoves⟩ := hfault
  exact .next (.next (.next (.next (.next .none
    rfl (.states hform.states_ne_nil hform.states) hstates)
    rfl (.alphabet hform.symbols_ne_nil hform.symbols) hsymbols)
    rfl (.initial hform.initial) hinitial)
    rfl (.accepting hform.accepting) haccepting)
    rfl (.moves hform.entries_ne_nil hform.entries) hmoves

end Sheet

/-- Five lines pass exactly if they are those of a sheet that names only its own states and
symbols. -/
theorem passes_five_iff {lines : List (List Char)} {calls : List (Operation String)} :
    Passes lines 5 calls ↔ ∃ sheet : Sheet, sheet.WellFormed ∧ sheet.lines <+: lines ∧
      sheet.listing.Closed ∧ calls = sheet.calls := by
  constructor
  · intro h
    have hclosed := h.closed
    obtain _ | ⟨h, hline₅, hread₅, -⟩ := h
    obtain _ | ⟨h, hline₄, hread₄, -⟩ := h
    obtain _ | ⟨h, hline₃, hread₃, -⟩ := h
    obtain _ | ⟨h, hline₂, hread₂, -⟩ := h
    obtain _ | ⟨h, hline₁, hread₁, -⟩ := h
    obtain _ | _ := h
    obtain ⟨hstates_ne, hstates⟩ | _ := hread₁
    obtain _ | ⟨hsymbols_ne, hsymbols⟩ | _ := hread₂
    obtain _ | _ | ⟨hinitial⟩ | _ := hread₃
    obtain _ | _ | _ | ⟨haccepting⟩ | _ := hread₄
    obtain _ | _ | _ | _ | ⟨hentries_ne, hentries⟩ := hread₅
    refine ⟨⟨_, _, _, _, _⟩, ⟨hstates_ne, hsymbols_ne, hentries_ne, hstates, hsymbols, hinitial,
      haccepting, hentries⟩, ?_, ?_, rfl⟩
    · rw [List.prefix_iff_getElem?]
      intro i hi
      match i with
      | 0 => exact hline₁
      | 1 => exact hline₂
      | 2 => exact hline₃
      | 3 => exact hline₄
      | 4 => exact hline₅
    · exact Sheet.ofCalls_calls _ ▸ hclosed
  · rintro ⟨sheet, hform, ⟨rest, rfl⟩, hclosed, rfl⟩
    exact Sheet.passes_calls hform hclosed rest

end Description

namespace Automaton

open Description

/-- A description is read line after line. -/
theorem ofDescription_eq_readUpTo (text : String) :
    (ofDescription text : Except (Failure String) (Automaton String)) =
      readUpTo (Text.splitLines text.toList) 5 := by
  have hstates := readLine_eq_map (fun line => (rfl : lineCalls? line 1 = _))
  have hsymbols := readLine_eq_map (fun line => (rfl : lineCalls? line 2 = _))
  have hinitial := readLine_eq_map (fun line => (rfl : lineCalls? line 3 = _))
  have haccepting := readLine_eq_map (fun line => (rfl : lineCalls? line 4 = _))
  have hmoves := readLine_eq_map (fun line => (rfl : lineCalls? line 5 = _))
  -- states and symbols are never refused
  have haddState : (fun (m : Automaton String) state => Operation.apply m (.addState state)) =
      fun m state => pure (m.addState state) := rfl
  have haddSymbol : (fun (m : Automaton String) symbol => Operation.apply m (.addSymbol symbol)) =
      fun m symbol => pure (m.addSymbol symbol) := rfl
  simp only [readUpTo, bind_assoc, Nat.reduceAdd, hstates, hsymbols, hinitial, haccepting, hmoves,
    bind_map_left, List.foldlM_map, haddState, haddSymbol, List.foldlM_pure, pure_bind]
  refine bind_congr (fun states => ?_)
  refine bind_congr (fun symbols => ?_)
  refine bind_congr (fun initial => ?_)
  cases initial with
  | none => rfl
  | some state =>
    rw [Option.toList_some, List.foldlM_cons, bind_assoc]
    rfl

/-- A text is accepted exactly if its first five lines are those of a sheet that names only its own
states and symbols, and is then read as the automaton of what the sheet lists. -/
theorem ofDescription_eq_ok_iff {text : String} {m : Automaton String} :
    ofDescription text = .ok m ↔
      ∃ sheet : Sheet, sheet.WellFormed ∧ sheet.lines <+: Text.splitLines text.toList ∧
        sheet.listing.Closed ∧ m = sheet.listing.automaton := by
  rw [ofDescription_eq_readUpTo, readUpTo_eq_ok_iff]
  constructor
  · rintro ⟨calls, hpasses, rfl⟩
    obtain ⟨sheet, hform, hlines, hclosed, rfl⟩ := passes_five_iff.mp hpasses
    exact ⟨sheet, hform, hlines, hclosed, by rw [Sheet.ofCalls_calls]⟩
  · rintro ⟨sheet, hform, hlines, hclosed, rfl⟩
    exact ⟨sheet.calls, passes_five_iff.mpr ⟨sheet, hform, hlines, hclosed, rfl⟩,
      by rw [Sheet.ofCalls_calls]⟩

/-- A text is refused for the first line that is. -/
theorem ofDescription_eq_error_iff {text : String} {failure : Failure String} :
    (ofDescription text : Except (Failure String) (Automaton String)) = .error failure ↔
      ∃ n < 5, ∃ before, Passes (Text.splitLines text.toList) n before ∧
        Fails (Text.splitLines text.toList) n before failure := by
  rw [ofDescription_eq_readUpTo, readUpTo_eq_error_iff]

/-- An automaton that is read from a description was built by calls. -/
theorem built_of_ofDescription {text : String} {m : Automaton String}
    (h : ofDescription text = .ok m) : m.Built := by
  rw [ofDescription_eq_readUpTo, readUpTo_eq_ok_iff] at h
  obtain ⟨calls, hpasses, rfl⟩ := h
  exact ⟨calls, hpasses.replay_eq.symm⟩

/-- The symbols of an automaton that is read from a description are names. -/
theorem isIdentifier_of_mem_alphabet {text : String} {m : Automaton String}
    (h : ofDescription text = .ok m) {symbol : String} (hsymbol : symbol ∈ m.alphabet) :
    IsIdentifier symbol := by
  obtain ⟨sheet, hform, -, -, rfl⟩ := ofDescription_eq_ok_iff.mp h
  exact hform.symbols symbol (List.mem_eraseDups.mp hsymbol)

/-- A text is accepted exactly if its first five lines are those of a sheet that names only its own
states and symbols, and is then read as the automaton of what the sheet lists. Otherwise the failure
is that of the first line that is refused: it is missing, it has not its form, or its leftmost entry
that refers to something unregistered does so, first by its source, then by its target and then by
its symbol. -/
theorem ofDescription_reads_sheet (text : String) :
    (∀ m : Automaton String, ofDescription text = .ok m ↔
      ∃ sheet : Sheet, sheet.WellFormed ∧ sheet.lines <+: Text.splitLines text.toList ∧
        sheet.listing.Closed ∧ m = sheet.listing.automaton) ∧
    (∀ failure : Failure String,
      (ofDescription text : Except _ (Automaton String)) = .error failure ↔
        ∃ n < 5, ∃ before, Passes (Text.splitLines text.toList) n before ∧
          Fails (Text.splitLines text.toList) n before failure) ∧
    (∀ failure : Failure String,
      (ofDescription text : Except _ (Automaton String)) = .error failure →
        (∃ problem, failure = .malformed problem) ∨ (∃ state, failure = .noSuchState state) ∨
          ∃ symbol, failure = .noSuchSymbol symbol) ∧
    (∀ n : Nat, (Failure.malformed (.missingLine n) : Failure String).message =
      "Missing line " ++ toString n) ∧
    ∀ (n : Nat) (line : String), (Failure.malformed (.badLine n line) : Failure String).message =
      "Line " ++ toString n ++ " is malformed: " ++ Text.quote line := by
  refine ⟨fun m => ofDescription_eq_ok_iff, fun failure => ofDescription_eq_error_iff, ?_,
    fun n => rfl, fun n line => rfl⟩
  intro failure h
  obtain ⟨n, -, before, -, hfails⟩ := ofDescription_eq_error_iff.mp h
  exact hfails.cause

end Automaton

end Kleene
