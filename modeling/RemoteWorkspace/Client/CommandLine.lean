import RemoteWorkspace.Lib.ShellWords
import RemoteWorkspace.Lib.Text
import RemoteWorkspace.Lib.WindowsCommand

/-!
# Argument vectors as command lines

A remote shell takes one line of text, so argument vectors are quoted for it:
`remote_argv_command` in the client, `profile_script` in the server, which
keeps copies of the quoting functions. Read as the shells read them, the lines
are the arguments again.
-/

namespace RemoteWorkspace

/-- `replace` of one character. -/
def replaceChar (c : Char) (new cs : List Char) : List Char := cs.flatMap fun d => if d = c then new else [d]

def shellQuote (s : String) : String :=
  if s.isEmpty then "''" else "'" ++ String.ofList (replaceChar '\'' "'\\''".toList s.toList) ++ "'"

def powershellQuote (s : String) : String :=
  -- PowerShell ends a single-quoted string at any of these, not only the first.
  let quoted := s.toList.flatMap fun c =>
    if c ∈ ['\'', '\u2018', '\u2019', '\u201A', '\u201B'] then [c, c] else [c]
  "'" ++ String.ofList quoted ++ "'"

/-- The loop of `windows_command_line_arg`, with the quote that ends it. -/
def quoteArg : Nat → List Char → List Char
  | backslashes, [] => List.replicate (backslashes * 2) '\\' ++ ['"']
  | backslashes, c :: cs =>
    if c = '\\' then quoteArg (backslashes + 1) cs
    else if c = '"' then List.replicate (backslashes * 2 + 1) '\\' ++ '"' :: quoteArg 0 cs
    else List.replicate backslashes '\\' ++ c :: quoteArg 0 cs

def windowsCommandLineArg (arg : String) : String :=
  if !arg.isEmpty ∧ !arg.toList.any (fun c => Text.isWhitespace c || c = '"') then arg
  else String.ofList ('"' :: quoteArg 0 arg.toList)

inductive RemoteShell
  | posix
  | powershell
  deriving DecidableEq

def joinBlank (words : List String) : String := " ".intercalate words

/-! ### The fixed text of the PowerShell line -/

def beforeFileName : String :=
  "; try \x7b $psi = [System.Diagnostics.ProcessStartInfo]::new(); $psi.FileName = "

def beforeArguments : String := "; $psi.Arguments = "

def startProcess : String :=
  "; $psi.UseShellExecute = $false; $p = [System.Diagnostics.Process]::Start($psi); $p.WaitForExit(); " ++
    "exit $p.ExitCode \x7d catch \x7b [Console]::Error.WriteLine($_.Exception.Message); exit 1 \x7d"

def remoteArgvCommand (shell : RemoteShell) (argv : List String) : String :=
  match shell with
  | .posix => joinBlank (argv.map shellQuote)
  | .powershell =>
    let executable := argv.head?.getD ""
    let arguments := joinBlank ((argv.drop 1).map windowsCommandLineArg)
    "$ErrorActionPreference = " ++ "'Stop'" ++ beforeFileName ++ powershellQuote executable ++ beforeArguments ++
      powershellQuote arguments ++ startProcess

/-! ## The server's copies -/

namespace Exec

namespace Unix

def shellQuote (s : String) : String :=
  if s.isEmpty then "''" else "'" ++ String.ofList (replaceChar '\'' "'\\''".toList s.toList) ++ "'"

def profileScript (setup : String) (argv : List String) : String :=
  let quoted := argv.map shellQuote
  if setup.isEmpty then "exec " ++ joinBlank quoted else setup ++ "\nexec " ++ joinBlank quoted

end Unix

namespace Windows

def powershellQuote (arg : String) : String :=
  let quoted := arg.toList.flatMap fun c =>
    if c ∈ ['\'', '\u2018', '\u2019', '\u201A', '\u201B'] then [c, c] else [c]
  "'" ++ String.ofList quoted ++ "'"

def quoteArg : Nat → List Char → List Char
  | backslashes, [] => List.replicate (backslashes * 2) '\\' ++ ['"']
  | backslashes, c :: cs =>
    if c = '\\' then quoteArg (backslashes + 1) cs
    else if c = '"' then List.replicate (backslashes * 2 + 1) '\\' ++ '"' :: quoteArg 0 cs
    else List.replicate backslashes '\\' ++ c :: quoteArg 0 cs

def windowsCommandLineArg (arg : String) : String :=
  if !arg.isEmpty ∧ !arg.toList.any (fun c => Text.isWhitespace c || c = '"') then arg
  else String.ofList ('"' :: quoteArg 0 arg.toList)

/-! ### The fixed text of the script -/

def beforeSlashes : String := "; if ($exe -notmatch "

def beforeArguments : String :=
  ") \x7b $exe = (Get-Command -Name $exe -CommandType Application -ErrorAction Stop | Select-Object -First 1).Source " ++
    "\x7d; $psi = [System.Diagnostics.ProcessStartInfo]::new(); $psi.FileName = $exe; $psi.Arguments = "

def startProcess : String :=
  "; $psi.WorkingDirectory = (Get-Location -PSProvider FileSystem).ProviderPath; $psi.UseShellExecute = $false; " ++
    "$p = [System.Diagnostics.Process]::Start($psi); $p.WaitForExit(); " ++
    "exit $p.ExitCode \x7d catch \x7b [Console]::Error.WriteLine($_.Exception.Message); exit 1 \x7d"

/-- What the script does after the setup. -/
def invoke (argv : List String) : String :=
  let executable := argv.head?.getD ""
  let arguments := joinBlank ((argv.drop 1).map windowsCommandLineArg)
  "try \x7b $exe = " ++ powershellQuote executable ++ beforeSlashes ++ "'[\\\\/]'" ++ beforeArguments ++
    powershellQuote arguments ++ startProcess

def profileScript (setup : String) (argv : List String) : String := setup ++ "\n" ++ invoke argv

end Windows

end Exec

/-! ## POSIX -/

section Posix
open ShellWords

theorem run_replaceChar (cs : List Char) (w : Word) :
    run (.single w) (replaceChar '\'' "'\\''".toList cs) = (.single (w ++ cs.map .quoted), []) := by
  induction cs generalizing w with
  | nil => simp [replaceChar]
  | cons c cs ih =>
    rw [replaceChar, List.flatMap_cons, run_append]
    by_cases hc : c = '\''
    · -- Out of the quotes, an escaped quote, and in again.
      subst hc
      have hescape : run (.single w) "'\\''".toList = (.single (w ++ [.quoted '\'']), []) := rfl
      rw [if_pos rfl, hescape]
      show ((run _ (replaceChar _ _ cs)).1, [] ++ (run _ (replaceChar _ _ cs)).2) = _
      rw [ih]
      simp
    · rw [if_neg hc, run_single hc]
      show ((run _ (replaceChar _ _ cs)).1, [] ++ (run _ (replaceChar _ _ cs)).2) = _
      rw [run_nil, ih]
      simp

theorem spells_shellQuote (s : String) : Spells (shellQuote s).toList s.toList := by
  by_cases hs : s = ""
  · subst hs
    rfl
  · rw [shellQuote, if_neg (by simpa using hs)]
    have hend : ∀ w : Word, run (.single w) ['\''] = (.outside (some w), []) := fun w => rfl
    simp only [String.toList_append, String.toList_ofList, List.append_assoc]
    show run (.single []) (replaceChar '\'' "'\\''".toList s.toList ++ ['\'']) = _
    rw [run_append, run_replaceChar, hend]
    simp

theorem toList_joinBlank (words : List String) : (joinBlank words).toList = [' '].intercalate (words.map String.toList) := by
  rw [joinBlank, String.toList_intercalate]
  rfl

theorem words_joinBlank_shellQuote (argv : List String) :
    words (joinBlank (argv.map shellQuote)).toList = some (argv.map String.toList) := by
  rw [toList_joinBlank, List.map_map]
  exact words_intercalate spells_shellQuote argv

/-- Read by the shell, the command line is the words of `argv` and nothing
else, and so is what a profile's script gives to `exec`. -/
theorem posix_lines_carry_argv (argv : List String) (setup : String) :
    words (remoteArgvCommand .posix argv).toList = some (argv.map String.toList) ∧
    (∃ line, Exec.Unix.profileScript setup argv = (if setup = "" then "" else setup ++ "\n") ++ "exec " ++ line ∧
      words line.toList = some (argv.map String.toList)) ∧
    ∀ s, Exec.Unix.shellQuote s = shellQuote s := by
  refine ⟨words_joinBlank_shellQuote argv, ⟨joinBlank (argv.map shellQuote), ?_, words_joinBlank_shellQuote argv⟩,
    fun s => rfl⟩
  show (if setup.isEmpty then "exec " ++ joinBlank (argv.map shellQuote)
    else setup ++ "\nexec " ++ joinBlank (argv.map shellQuote)) = _
  by_cases hsetup : setup = ""
  · simp [hsetup]
  · have hjoin : "\nexec " = "\n" ++ "exec " := by decide
    rw [if_neg (by simpa using hsetup), if_neg hsetup, hjoin]
    simp only [String.append_assoc]

end Posix

/-! ## Windows -/

section Windows
open WindowsArguments

variable {pairs : Bool}

theorem run_quoteArg (w : List Char) (backslashes : Nat) (cs : List Char) :
    run pairs ⟨some w, 0, true, false⟩ (quoteArg backslashes cs) =
      (⟨some (w ++ List.replicate backslashes '\\' ++ cs), 0, false, true⟩, []) := by
  induction cs generalizing w backslashes with
  | nil => rw [quoteArg, run_even, run_nil, List.append_nil]
  | cons c cs ih =>
    rw [quoteArg]
    by_cases hslash : c = '\\'
    · rw [if_pos hslash, ih, hslash, List.replicate_succ']
      simp
    rw [if_neg hslash]
    by_cases hquote : c = '"'
    · rw [if_pos hquote, run_odd, ih, hquote]
      simp
    · rw [if_neg hquote, run_plain w true backslashes hslash hquote (by simp), ih]
      simp

theorem spells_windowsCommandLineArg (arg : String) : Spells pairs (windowsCommandLineArg arg).toList arg.toList := by
  rw [windowsCommandLineArg]
  split
  · next h =>
    have hne : arg.toList ≠ [] := by simpa using h.1
    refine spells_bare (fun c hc => ?_) hne
    have hplain : Text.isWhitespace c = false ∧ c ≠ '"' := by
      have := h.2
      simp only [Bool.not_eq_true', List.any_eq_false] at this
      simpa using this c hc
    refine ⟨hplain.2, ?_, ?_⟩
    · rintro rfl
      exact absurd hplain.1 (by decide)
    · rintro rfl
      exact absurd hplain.1 (by decide)
  · rw [String.toList_ofList]
    refine ⟨⟨some arg.toList, 0, false, true⟩, ?_, by simp, rfl, by simp [State.text]⟩
    rw [run_open, run_quoteArg]
    simp

theorem split_arguments (argv : List String) :
    split pairs (joinBlank (argv.map windowsCommandLineArg)).toList = argv.map String.toList := by
  rw [toList_joinBlank, List.map_map]
  exact split_intercalate spells_windowsCommandLineArg argv

theorem toList_powershellQuote (s : String) :
    (powershellQuote s).toList = '\'' :: (PowerShell.double s.toList ++ ['\'']) := by
  simp only [powershellQuote, String.toList_append, String.toList_ofList]
  rfl

theorem quoteArg_agree (backslashes : Nat) (cs : List Char) :
    Exec.Windows.quoteArg backslashes cs = quoteArg backslashes cs := by
  induction cs generalizing backslashes with
  | nil => rfl
  | cons c cs ih => simp only [Exec.Windows.quoteArg, quoteArg, ih]

theorem windowsCommandLineArg_agree (arg : String) :
    Exec.Windows.windowsCommandLineArg arg = windowsCommandLineArg arg := by
  simp only [Exec.Windows.windowsCommandLineArg, windowsCommandLineArg, quoteArg_agree]

section
open PowerShell

/-- Code that may stand behind a literal. -/
def IsBetween (s : String) : Prop := s ≠ "" ∧ IsCode s.toList

/-- A script of three literals and code around them. -/
theorem scan_three {first second third last : String} (hfirst : IsCode first.toList) (hsecond : IsBetween second)
    (hthird : IsBetween third) (hlast : IsBetween last) (s t u : String) :
    scan (first ++ powershellQuote s ++ second ++ powershellQuote t ++ third ++ powershellQuote u ++ last).toList =
      some [.code first.toList, .literal s.toList, .code second.toList, .literal t.toList, .code third.toList,
        .literal u.toList, .code last.toList] := by
  have hcons : ∀ {x : String}, IsBetween x → ∃ c cs, x.toList = c :: cs ∧ IsCode [c] ∧ IsCode cs := by
    intro x ⟨hne, hcode⟩
    obtain ⟨c, cs, hx⟩ := List.exists_cons_of_ne_nil (show x.toList ≠ [] by simpa using hne)
    rw [hx] at hcode
    exact ⟨c, cs, hx, fun d hd => hcode d (by simp_all), fun d hd => hcode d (by simp [hd])⟩
  obtain ⟨c₂, cs₂, heq₂, hc₂, hcs₂⟩ := hcons hsecond
  obtain ⟨c₃, cs₃, heq₃, hc₃, hcs₃⟩ := hcons hthird
  obtain ⟨c₄, cs₄, heq₄, hc₄, hcs₄⟩ := hcons hlast
  simp only [String.toList_append, toList_powershellQuote, List.append_assoc, List.cons_append, List.nil_append, heq₂,
    heq₃, heq₄, scan]
  rw [scanFrom_quoted hfirst hc₂, scanFrom_quoted hcs₂ hc₃, scanFrom_quoted hcs₃ hc₄, scanFrom_last hcs₄]
  rfl

theorem powershellQuote_stop : powershellQuote "Stop" = "'Stop'" := by decide

theorem powershellQuote_slashes : powershellQuote "[\\\\/]" = "'[\\\\/]'" := by decide

theorem isCode_ofList {cs : List Char} (h : IsCode cs) : IsCode (String.ofList cs).toList := by
  rwa [String.toList_ofList]

theorem isCode_append {s t : String} (hs : IsCode s.toList) (ht : IsCode t.toList) : IsCode (s ++ t).toList := by
  rw [String.toList_append]
  intro c hc
  rcases List.mem_append.mp hc with hc | hc
  · exact hs c hc
  · exact ht c hc

theorem isBetween_beforeFileName : IsBetween beforeFileName := ⟨by decide, isCode_ofList (by decide)⟩

theorem isBetween_beforeArguments : IsBetween beforeArguments := ⟨by decide, isCode_ofList (by decide)⟩

theorem isBetween_startProcess : IsBetween startProcess :=
  ⟨by decide, isCode_append (isCode_ofList (by decide)) (isCode_ofList (by decide))⟩

theorem isBetween_script : IsBetween Exec.Windows.beforeSlashes ∧ IsBetween Exec.Windows.beforeArguments ∧
    IsBetween Exec.Windows.startProcess := by
  refine ⟨⟨by decide, isCode_ofList (by decide)⟩, ⟨by decide, isCode_append ?_ ?_⟩,
    ⟨by decide, isCode_append (isCode_append ?_ ?_) ?_⟩⟩
  all_goals exact isCode_ofList (by decide)

/-- Read by PowerShell, the command line sets the executable and the text of
the arguments, and nothing quoted reaches into the code around it; the C
runtime splits that text into the arguments. The server's script does the
same with its own copies of the quoting functions. -/
theorem powershell_lines_carry_argv (pairs : Bool) (executable : String) (arguments : List String) :
    (∃ line : String,
      scan (remoteArgvCommand .powershell (executable :: arguments)).toList =
        some [.code "$ErrorActionPreference = ".toList, .literal "Stop".toList, .code beforeFileName.toList,
          .literal executable.toList, .code beforeArguments.toList, .literal line.toList, .code startProcess.toList] ∧
      split pairs line.toList = arguments.map String.toList) ∧
    (∃ line : String,
      scan (Exec.Windows.invoke (executable :: arguments)).toList =
        some [.code "try \x7b $exe = ".toList, .literal executable.toList, .code Exec.Windows.beforeSlashes.toList,
          .literal "[\\\\/]".toList, .code Exec.Windows.beforeArguments.toList, .literal line.toList,
          .code Exec.Windows.startProcess.toList] ∧
      split pairs line.toList = arguments.map String.toList) ∧
    (∀ s, Exec.Windows.powershellQuote s = powershellQuote s) ∧
    ∀ s, Exec.Windows.windowsCommandLineArg s = windowsCommandLineArg s := by
  refine ⟨⟨joinBlank (arguments.map windowsCommandLineArg), ?_, split_arguments arguments⟩,
    ⟨joinBlank (arguments.map windowsCommandLineArg), ?_, split_arguments arguments⟩, fun s => rfl,
    windowsCommandLineArg_agree⟩
  · have hcommand : remoteArgvCommand .powershell (executable :: arguments) =
        "$ErrorActionPreference = " ++ powershellQuote "Stop" ++ beforeFileName ++ powershellQuote executable ++
          beforeArguments ++ powershellQuote (joinBlank (arguments.map windowsCommandLineArg)) ++ startProcess := by
      rw [powershellQuote_stop]
      rfl
    rw [hcommand]
    exact scan_three (isCode_ofList (by decide)) isBetween_beforeFileName isBetween_beforeArguments
      isBetween_startProcess ..
  · have hinvoke : Exec.Windows.invoke (executable :: arguments) =
        "try \x7b $exe = " ++ powershellQuote executable ++ Exec.Windows.beforeSlashes ++
          powershellQuote "[\\\\/]" ++ Exec.Windows.beforeArguments ++
          powershellQuote (joinBlank (arguments.map windowsCommandLineArg)) ++ Exec.Windows.startProcess := by
      rw [powershellQuote_slashes, ← funext windowsCommandLineArg_agree]
      rfl
    rw [hinvoke]
    exact scan_three (isCode_ofList (by decide)) isBetween_script.1 isBetween_script.2.1 isBetween_script.2.2 ..

end

end Windows

end RemoteWorkspace
