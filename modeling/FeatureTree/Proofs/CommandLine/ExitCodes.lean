import FeatureTree.CommandLine.Run
import FeatureTree.Proofs.Calculator.Faults
import FeatureTree.Proofs.Calculator.GroupArena

/-!
# ExitCodes — the commands agree on what is rejected

All three commands read the text of the file first, and only reading rejects a text: grouping fails for
broken rules of nesting and for trees that no text has.  So a text is rejected by all commands or by
none, and this depends on its brackets and on the limit alone.

`CommandsAgree` lists what the three reports have in common, and `exit_codes_agree` says this of complete
command lines, for every set of files.
-/

namespace FeatureTree

namespace Calculator

variable {text : SourceText} {limits : Limits} {maxDepth depth : Nat}

/-! ## Rejected texts -/

/-- Reading rejects the text, rather than failing at a rule of nesting. -/
def Rejects (text : SourceText) (limits : Limits) : Prop :=
  ∃ e, read text limits = .error e ∧ e.isRejection = true

/-- From left to right, an unmatched or an unclosed bracket is met before any token that lies too deep;
`depth` counts the brackets that are open. -/
inductive Unbalanced (maxDepth : Nat) : Nat → List TokenKind → Prop where
  | unmatched (rest : List TokenKind) : Unbalanced maxDepth 0 (.closing :: rest)
  | unclosed (depth : Nat) : Unbalanced maxDepth (depth + 1) []
  | closing (depth : Nat) (rest : List TokenKind) (later : Unbalanced maxDepth depth rest) :
      Unbalanced maxDepth (depth + 1) (.closing :: rest)
  | opening (depth : Nat) (rest : List TokenKind) (room : depth < maxDepth)
      (later : Unbalanced maxDepth (depth + 1) rest) : Unbalanced maxDepth depth (.opening :: rest)
  | leaf (depth : Nat) (kind : TokenKind) (rest : List TokenKind) (opens : kind ≠ .opening)
      (closes : kind ≠ .closing) (room : depth < maxDepth) (later : Unbalanced maxDepth depth rest) :
      Unbalanced maxDepth depth (kind :: rest)

theorem unbalanced_closing {rest : List TokenKind} :
    Unbalanced maxDepth (depth + 1) (.closing :: rest) ↔ Unbalanced maxDepth depth rest := by
  constructor
  · intro h
    cases h with
    | closing _ _ later => exact later
    | leaf _ _ _ _ closes _ _ => exact absurd rfl closes
  · exact .closing depth rest

theorem unbalanced_opening {rest : List TokenKind} (hroom : depth < maxDepth) :
    Unbalanced maxDepth depth (.opening :: rest) ↔ Unbalanced maxDepth (depth + 1) rest := by
  constructor
  · intro h
    cases h with
    | opening _ _ _ later => exact later
    | leaf _ _ _ opens _ _ _ => exact absurd rfl opens
  · exact .opening depth rest hroom

theorem unbalanced_leaf {kind : TokenKind} {rest : List TokenKind} (hopens : kind ≠ .opening)
    (hcloses : kind ≠ .closing) (hroom : depth < maxDepth) :
    Unbalanced maxDepth depth (kind :: rest) ↔ Unbalanced maxDepth depth rest := by
  constructor
  · intro h
    cases h with
    | unmatched _ => exact absurd rfl hcloses
    | closing _ _ _ => exact absurd rfl hcloses
    | opening _ _ _ _ => exact absurd rfl hopens
    | leaf _ _ _ _ _ _ later => exact later
  · exact .leaf depth kind rest hopens hcloses hroom

/-- A token that lies too deep is not the fault of a bracket. -/
theorem not_unbalanced {kind : TokenKind} {rest : List TokenKind} (hcloses : kind ≠ .closing)
    (hfull : maxDepth ≤ depth) : ¬ Unbalanced maxDepth depth (kind :: rest) := by
  intro h
  cases h with
  | unmatched _ => exact hcloses rfl
  | closing _ _ _ => exact hcloses rfl
  | opening _ _ room _ => exact Nat.not_lt.2 hfull room
  | leaf _ _ _ _ _ room _ => exact Nat.not_lt.2 hfull room

/-- The scan over tokens ends in a rejection exactly if the brackets are at fault. -/
theorem verdict_rejects_iff (opens : List Nat) (tokens : List Token) :
    (∃ e, verdict text maxDepth opens tokens = .error e ∧ e.isRejection = true) ↔
      Unbalanced maxDepth opens.length (tokens.map Token.kind) := by
  -- By induction on the tokens, with the open brackets that the scan remembers.
  induction tokens generalizing opens with
  | nil =>
      cases opens with
      | nil =>
          constructor
          · rintro ⟨e, he, -⟩
            cases he
          · rintro ⟨⟩
      | cons start rest => exact ⟨fun _ => .unclosed _, fun _ => ⟨_, rfl, rfl⟩⟩
  | cons token tokens ih =>
      rw [List.map_cons, verdict]
      by_cases hcloses : token.kind = .closing
      · rw [offence?, if_pos hcloses, hcloses]
        cases opens with
        | nil => exact ⟨fun _ => .unmatched _, fun _ => ⟨_, rfl, rfl⟩⟩
        | cons start rest =>
            change (∃ e, verdict text maxDepth (opensAfter (start :: rest) token) tokens = .error e ∧
              e.isRejection = true) ↔ _
            rw [opensAfter_closing hcloses, ih, List.tail_cons, List.length_cons, unbalanced_closing]
      · rw [offence?, if_neg hcloses]
        by_cases hfull : maxDepth ≤ opens.length
        · rw [if_pos hfull]
          refine ⟨?_, fun h => absurd h (not_unbalanced hcloses hfull)⟩
          rintro ⟨e, he, hrejection⟩
          obtain rfl := Except.error.inj he
          cases hrejection
        · have hroom : opens.length < maxDepth := Nat.not_le.1 hfull
          rw [if_neg hfull]
          change (∃ e, verdict text maxDepth (opensAfter opens token) tokens = .error e ∧
            e.isRejection = true) ↔ _
          by_cases hopens : token.kind = .opening
          · rw [opensAfter_opening hopens, ih, List.length_cons, hopens, unbalanced_opening hroom]
          · rw [opensAfter_leaf hopens hcloses, ih, unbalanced_leaf hopens hcloses hroom]

theorem rejects_iff (text : SourceText) (limits : Limits) :
    Rejects text limits ↔ Unbalanced limits.maxDepth 0 ((tokens text).map Token.kind) := by
  have hscan : ((read text limits).map fun _ => ()) = verdict text limits.maxDepth [] (tokens text) := by
    rw [read_eq_foldlM]
    exact Scaffold.foldlM_verdict (tokens text) (Scaffold.blank text)
  have hverdict : (∃ e, verdict text limits.maxDepth [] (tokens text) = .error e ∧
      e.isRejection = true) ↔ _ := verdict_rejects_iff [] (tokens text)
  refine Iff.trans ?_ hverdict
  rw [← hscan, Rejects]
  cases read text limits with
  | ok flat =>
      constructor
      · rintro ⟨e, he, -⟩
        cases he
      · rintro ⟨e, he, -⟩
        cases he
  | error e =>
      constructor
      · rintro ⟨e', he, hrejection⟩
        obtain rfl := Except.error.inj he
        exact ⟨e, rfl, hrejection⟩
      · rintro ⟨e', he, hrejection⟩
        obtain rfl := Except.error.inj he
        exact ⟨e, rfl, hrejection⟩

/-- The tree of a text is always grouped to the end, or to an error. -/
theorem readBoth_ends (text : SourceText) (limits : Limits) :
    readBoth text limits ≠ .unfinished := by
  unfold readBoth
  cases hread : read text limits with
  | error e => exact fun h => nomatch h
  | ok flat =>
      rcases faultless_of_read hread with ⟨T, hT, hplain, -⟩
      have hgroup := group_eq limits hT hplain
      split at hgroup
      · rcases hgroup with ⟨out, hout, -⟩
        simp [hout]
      · simp [hgroup]

end Calculator

namespace CommandLine

open Calculator (SyntaxTree ExprTree Rejects)

variable {files : Files} {file : String} {config : Option String} {text : SourceText}
variable {settings : Settings}

/-! ## What a command finds -/

/-- The settings that a request runs with. -/
def settings? (files : Files) (config : Option String) : Option Settings :=
  match config with
  | some path => loadSettings? files path
  | none => if files.isFile settingsFile then loadSettings? files settingsFile else some {}

/-- The settings can be read, and the file holds a text. -/
structure Finds (files : Files) (config : Option String) (file : String) (settings : Settings)
    (text : SourceText) : Prop where
  settings : settings? files config = some settings
  text : (files.text? file).map SourceText.ofString = some text

/-- The text of the file is rejected. -/
def RejectsFile (files : Files) (config : Option String) (file : String) : Prop :=
  ∃ settings text, Finds files config file settings text ∧ Rejects text settings.limits

/-- The command has all that it needs: the text can be read and, unless that is all that was asked for,
its tree can be grouped. -/
def Completes (files : Files) (config : Option String) (file : String) (command : Command) : Prop :=
  ∃ settings text flat, Finds files config file settings text ∧
    Calculator.read text settings.limits = .ok flat ∧
    (command = .read ∨ ∃ expression, Calculator.group flat settings.limits = .success expression)

/-- The exit code of a command on a text. -/
def codeOn (command : Command) (text : SourceText) (limits : Limits) : Nat :=
  match Calculator.read text limits with
  | .error e => if e.isRejection then 1 else 2
  | .ok flat =>
      if command = .read then 0
      else
        match Calculator.group flat limits with
        | .success _ => 0
        | _ => 2

/-- The exit code of a complete request. -/
def codeOf (files : Files) (config : Option String) (file : String) (command : Command) : Nat :=
  match settings? files config, (files.text? file).map SourceText.ofString with
  | some settings, some text => codeOn command text settings.limits
  | _, _ => 2

/-! ## Reports -/

/-- The report has this exit code, and prints nothing unless the code is zero. -/
structure Report.Tells (r : Report) (code : Nat) : Prop where
  exitCode : r.exitCode = code
  quiet : code ≠ 0 → r.output = ""

namespace Report

theorem tells_success (output : String) : (success output).Tells 0 :=
  ⟨rfl, fun h => absurd rfl h⟩

theorem tells_failed : failed.Tells 2 := ⟨rfl, fun _ => rfl⟩

theorem tells_ofError (file : String) (e : Calculator.Error) :
    (ofError file e).Tells (if e.isRejection then 1 else 2) := by
  unfold ofError
  split
  · exact ⟨rfl, fun _ => rfl⟩
  · exact tells_failed

theorem Tells.after {r : Report} {code : Nat} (h : r.Tells code) (line : Severity × String) :
    (r.after line).Tells code := ⟨h.exitCode, h.quiet⟩

end Report

/-- The exit code of what became of a text. -/
def codeOfOutcome {α : Type} : Outcome Calculator.Error α → Nat
  | .success _ => 0
  | .failure e => if e.isRejection then 1 else 2
  | .unfinished => 2

theorem Report.tells_ofOutcome {α : Type} (write : α → String)
    (outcome : Outcome Calculator.Error α) :
    (ofOutcome file write outcome).Tells (codeOfOutcome outcome) := by
  cases outcome with
  | success a => exact tells_success (write a)
  | failure e => exact tells_ofError file e
  | unfinished => exact tells_failed

theorem codeOfOutcome_readBoth (command : Command) (hcommand : command ≠ .read)
    (text : SourceText) (limits : Limits) :
    codeOfOutcome (Calculator.readBoth text limits) = codeOn command text limits := by
  unfold Calculator.readBoth codeOn
  cases Calculator.read text limits with
  | error e => rfl
  | ok flat =>
      simp only [if_neg hcommand]
      cases hgroup : Calculator.group flat limits with
      | success expression => rfl
      | unfinished => rfl
      | failure e =>
          -- Grouping rejects nothing, so its failures are failures of the other kind.
          have hkind : (Calculator.Error.grouping e).isRejection = false :=
            Calculator.group_not_isRejection hgroup
          simp [codeOfOutcome, hkind]

theorem codeOfOutcome_readAndGroup (text : SourceText) (limits : Limits) :
    codeOfOutcome (Calculator.readAndGroup text limits) =
      codeOfOutcome (Calculator.readBoth text limits) := by
  unfold Calculator.readAndGroup
  split <;> next h => rw [h]; rfl

theorem tells_command (command : Command) (file : String) (text : SourceText) (settings : Settings) :
    (command.run file text settings).Tells (codeOn command text settings.limits) := by
  cases command with
  | read =>
      unfold Command.run codeOn
      cases Calculator.read text settings.limits with
      | ok flat => exact Report.tells_success _
      | error e => exact Report.tells_ofError file (.reading e)
  | transform =>
      have hcode := codeOfOutcome_readBoth .transform (by decide) text settings.limits
      rw [← hcode, ← codeOfOutcome_readAndGroup]
      exact Report.tells_ofOutcome settings.format.write _
  | stats =>
      have hcode := codeOfOutcome_readBoth .stats (by decide) text settings.limits
      rw [← hcode]
      exact Report.tells_ofOutcome _ _

theorem tells_runWith (i : Invocation) (files : Files) (settings : Settings) :
    (i.runWith files settings).Tells
      (match (files.text? i.file).map SourceText.ofString with
      | some text => codeOn i.command text settings.limits
      | none => 2) := by
  unfold Invocation.runWith
  cases files.text? i.file with
  | none => exact Report.tells_failed
  | some text => exact tells_command i.command i.file _ _

/-- The report of a complete request. -/
theorem tells_run (i : Invocation) (files : Files) :
    (i.run files).Tells (codeOf files i.config i.file i.command) := by
  have hfrom : ∀ path, (i.runFrom files path).Tells
      (match loadSettings? files path, (files.text? i.file).map SourceText.ofString with
      | some settings, some text => codeOn i.command text settings.limits
      | _, _ => 2) := by
    intro path
    unfold Invocation.runFrom
    cases loadSettings? files path with
    | none => exact Report.tells_failed
    | some settings =>
        have hwith := tells_runWith i files settings
        cases htext : (files.text? i.file).map SourceText.ofString with
        | none => rwa [htext] at hwith
        | some text => rwa [htext] at hwith
  unfold Invocation.run codeOf settings?
  cases i.config with
  | some path => exact hfrom path
  | none =>
      dsimp only
      split
      · exact (hfrom settingsFile).after _
      · have hwith := tells_runWith i files {}
        cases htext : (files.text? i.file).map SourceText.ofString with
        | none => rwa [htext] at hwith
        | some text => rwa [htext] at hwith

/-! ## Codes -/

section Codes

variable {limits : Limits} {command : Command}

theorem codeOn_le : codeOn command text limits ≤ 2 := by
  unfold codeOn
  split
  · split <;> decide
  · split
    · decide
    · split <;> decide

theorem codeOn_eq_one_iff : codeOn command text limits = 1 ↔ Rejects text limits := by
  unfold codeOn Rejects
  cases Calculator.read text limits with
  | error e =>
      dsimp only
      constructor
      · intro hcode
        split at hcode
        · next hrejection => exact ⟨e, rfl, hrejection⟩
        · cases hcode
      · rintro ⟨e', he, hrejection⟩
        obtain rfl := Except.error.inj he
        rw [if_pos hrejection]
  | ok flat =>
      refine ⟨fun hcode => ?_, fun ⟨e, he, _⟩ => nomatch he⟩
      dsimp only at hcode
      split at hcode
      · cases hcode
      · split at hcode <;> cases hcode

theorem codeOn_eq_zero_iff : codeOn command text limits = 0 ↔
    ∃ flat, Calculator.read text limits = .ok flat ∧
      (command = .read ∨ ∃ expression, Calculator.group flat limits = .success expression) := by
  unfold codeOn
  cases Calculator.read text limits with
  | error e =>
      refine ⟨fun hcode => ?_, fun ⟨flat, hflat, _⟩ => nomatch hflat⟩
      dsimp only at hcode
      split at hcode <;> cases hcode
  | ok flat =>
      dsimp only
      constructor
      · intro hcode
        refine ⟨flat, rfl, ?_⟩
        split at hcode
        · next hread => exact .inl hread
        · split at hcode
          · next expression hgroup => exact .inr ⟨expression, hgroup⟩
          · cases hcode
      · rintro ⟨flat', hflat, hread | ⟨expression, hgroup⟩⟩
        · rw [if_pos hread]
        · obtain rfl := Except.ok.inj hflat
          simp [hgroup]

/-- Either settings and text are found, and the text decides, or the request fails. -/
theorem codeOf_cases (files : Files) (config : Option String) (file : String) :
    (∃ settings text, (∀ settings' text', Finds files config file settings' text' ↔
        settings' = settings ∧ text' = text) ∧
      ∀ command, codeOf files config file command = codeOn command text settings.limits) ∨
      (∀ settings text, ¬ Finds files config file settings text) ∧
        ∀ command, codeOf files config file command = 2 := by
  unfold codeOf
  cases hsettings : settings? files config with
  | none =>
      refine .inr ⟨fun settings text h => ?_, fun _ => rfl⟩
      have hfound := h.settings
      rw [hsettings] at hfound
      cases hfound
  | some settings =>
      cases htext : (files.text? file).map SourceText.ofString with
      | none =>
          refine .inr ⟨fun settings text h => ?_, fun _ => rfl⟩
          have hfound := h.text
          rw [htext] at hfound
          cases hfound
      | some text =>
          refine .inl ⟨settings, text, fun settings' text' => ?_, fun _ => rfl⟩
          constructor
          · intro h
            have hsame := h.settings
            have hsame' := h.text
            rw [hsettings] at hsame
            rw [htext] at hsame'
            exact ⟨(Option.some.inj hsame).symm, (Option.some.inj hsame').symm⟩
          · rintro ⟨rfl, rfl⟩
            exact ⟨hsettings, htext⟩

theorem codeOf_le : codeOf files config file command ≤ 2 := by
  rcases codeOf_cases files config file with ⟨settings, text, -, hcode⟩ | ⟨-, hcode⟩
  · exact hcode command ▸ codeOn_le
  · exact Nat.le_of_eq (hcode command)

theorem codeOf_eq_one_iff :
    codeOf files config file command = 1 ↔ RejectsFile files config file := by
  unfold RejectsFile
  rcases codeOf_cases files config file with ⟨settings, text, hfinds, hcode⟩ | ⟨hnothing, hcode⟩
  · rw [hcode, codeOn_eq_one_iff]
    constructor
    · exact fun h => ⟨settings, text, (hfinds _ _).2 ⟨rfl, rfl⟩, h⟩
    · rintro ⟨settings', text', hfound, h⟩
      obtain ⟨rfl, rfl⟩ := (hfinds _ _).1 hfound
      exact h
  · rw [hcode]
    exact ⟨fun h => (nomatch h), fun ⟨settings, text, hfound, _⟩ => absurd hfound (hnothing _ _)⟩

theorem codeOf_eq_zero_iff :
    codeOf files config file command = 0 ↔ Completes files config file command := by
  unfold Completes
  rcases codeOf_cases files config file with ⟨settings, text, hfinds, hcode⟩ | ⟨hnothing, hcode⟩
  · rw [hcode, codeOn_eq_zero_iff]
    constructor
    · rintro ⟨flat, hread, h⟩
      exact ⟨settings, text, flat, (hfinds _ _).2 ⟨rfl, rfl⟩, hread, h⟩
    · rintro ⟨settings', text', flat, hfound, hread, h⟩
      obtain ⟨rfl, rfl⟩ := (hfinds _ _).1 hfound
      exact ⟨flat, hread, h⟩
  · rw [hcode]
    exact ⟨fun h => (nomatch h), fun ⟨_, _, _, hfound, _⟩ => absurd hfound (hnothing _ _)⟩

theorem codeOf_transform_eq_stats :
    codeOf files config file .transform = codeOf files config file .stats := by
  have hsame : ∀ text limits, codeOn .transform text limits = codeOn .stats text limits :=
    fun _ _ => rfl
  unfold codeOf
  split
  · exact hsame _ _
  · rfl

end Codes

/-! ## Command lines -/

/-- What the reports of complete command lines for one file, one for each command, agree on. -/
structure CommandsAgree (files : Files) (config : Option String) (file : String)
    (report : Command → Report) : Prop where
  /-- The text is rejected by all commands or by none. -/
  rejected_iff : ∀ c, (report c).exitCode = 1 ↔ RejectsFile files config file
  /-- What is rejected has an unmatched or unclosed bracket in front of anything that lies too deep. -/
  rejects_iff : ∀ text limits, Rejects text limits ↔ Calculator.Unbalanced limits.maxDepth 0
    ((Calculator.tokens text).map Calculator.Token.kind)
  /-- Grouping rejects nothing. -/
  group_not_isRejection : ∀ (t : SyntaxTree) limits e, Calculator.group t limits = .failure e →
    e.isRejection = false
  /-- Grouping comes to an end on the tree of a text. -/
  readBoth_ends : ∀ text limits, Calculator.readBoth text limits ≠ .unfinished
  transform_eq_stats : (report .transform).exitCode = (report .stats).exitCode
  /-- Reading succeeds where grouping does. -/
  read_of_transform : (report .transform).exitCode = 0 → (report .read).exitCode = 0
  completed_iff : ∀ c, (report c).exitCode = 0 ↔ Completes files config file c
  /-- What neither is rejected nor completes has code two. -/
  failed_iff : ∀ c, (report c).exitCode = 2 ↔
    ¬ RejectsFile files config file ∧ ¬ Completes files config file c
  /-- Nothing is printed unless the code is zero. -/
  quiet : ∀ c, (report c).exitCode ≠ 0 → (report c).output = ""

/-- Complete command lines for the same file and settings, one for each command, agree on what is
rejected, for every set of files. -/
theorem exit_codes_agree {args : Command → List String} {format : Command → Option Format}
    {verbose : Command → Bool} (files : Files)
    (hargs : ∀ c, Request.ofArguments (args c) = .run ⟨c, file, format c, config, verbose c⟩) :
    CommandsAgree files config file fun c => run (args c) files := by
  have htells : ∀ c, (run (args c) files).Tells (codeOf files config file c) := by
    intro c
    rw [run, hargs]
    exact tells_run ⟨c, file, format c, config, verbose c⟩ files
  have hcode : ∀ c, (run (args c) files).exitCode = codeOf files config file c :=
    fun c => (htells c).exitCode
  exact {
    rejected_iff := fun c => by
      rw [hcode]
      exact codeOf_eq_one_iff
    rejects_iff := Calculator.rejects_iff
    group_not_isRejection := fun _ _ _ => Calculator.group_not_isRejection
    readBoth_ends := Calculator.readBoth_ends
    transform_eq_stats := by
      rw [hcode, hcode]
      exact codeOf_transform_eq_stats
    read_of_transform := fun htransform => by
      rw [hcode, codeOf_eq_zero_iff] at htransform ⊢
      rcases htransform with ⟨settings, text, flat, hfinds, hread, -⟩
      exact ⟨settings, text, flat, hfinds, hread, .inl rfl⟩
    completed_iff := fun c => by
      rw [hcode]
      exact codeOf_eq_zero_iff
    failed_iff := fun c => by
      have hle : codeOf files config file c ≤ 2 := codeOf_le
      have hone : codeOf files config file c = 1 ↔ RejectsFile files config file := codeOf_eq_one_iff
      rw [hcode, ← hone, ← codeOf_eq_zero_iff]
      omega
    quiet := fun c hne => (htells c).quiet (hcode c ▸ hne) }

/-- One file, which holds a closing bracket and nothing else. -/
def closingBracket : Files := fun path =>
  if path = "f" then .file ")".toUTF8 else .nothing

/-- The command line of each command for that file. -/
def onFile (command : Command) : List String := [command.name, "f"]

theorem exit_codes_closingBracket :
    (∀ c, Request.ofArguments (onFile c) = .run ⟨c, "f", none, none, false⟩) ∧
      ∀ c, (run (onFile c) closingBracket).exitCode = 1 := by
  have hargs : ∀ c, Request.ofArguments (onFile c) = .run ⟨c, "f", none, none, false⟩ := by
    intro c
    have hname : Token.ofArgument c.name = .plain c.name := by cases c <;> decide
    have hcommand : Command.ofName? c.name = some c := by cases c <;> decide
    have hfile : Token.ofArgument "f" = .plain "f" := by decide
    have htake : takeFile? none "f" = some "f" := by decide
    simp only [Request.ofArguments, onFile, programArguments, hname, hcommand, commandArguments, hfile,
      htake]
    rfl
  have hagree := exit_codes_agree closingBracket hargs
  have htext : closingBracket.text? "f" = some ")" := rfl
  have hkinds : (Calculator.tokens (SourceText.ofString ")")).map Calculator.Token.kind =
      [.closing] := by decide +kernel
  refine ⟨hargs, fun c => (hagree.rejected_iff c).2 ⟨{}, SourceText.ofString ")", ⟨rfl, ?_⟩, ?_⟩⟩
  · rw [htext]
    rfl
  · refine (hagree.rejects_iff _ _).2 ?_
    rw [hkinds]
    exact .unmatched []

end CommandLine
end FeatureTree
