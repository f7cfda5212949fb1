import Spintax.CommandLine.Arguments
import Spintax.CommandLine.Session
import Spintax.Diagnostic.Highlight
import Spintax.Sampling.Seeded
import Spintax.Script.Json
import Spintax.Variations.Listing

/-!
# Spintax — running commands

Each command loads the project of the working directory and then takes its
input. What reading had to repair goes to the standard error stream; the result
goes to the standard output.

`CommandLine.run` runs the arguments of the program among files, and gives its
exit code and what it wrote: 0 when all went well, 1 when a command failed, 2
when the arguments make no sense, 101 when no memory could hold the result.
-/

namespace Spintax.CommandLine

variable {m : Type → Type} [Monad m] [FileAccess m]

/-! ## Input -/

/-- A path taken from the working directory. -/
def fromWorkingDirectory (path : String) : Session m String := do
  return Files.join (← Session.ask FileAccess.workingDirectory) path

def isThere (path : String) : Session m Bool := do
  return (← Session.ask (FileAccess.kind? path)).isSome

/-- The project of the working directory. -/
def loadProject : Session m Project := do
  let path ← fromWorkingDirectory Project.fileName
  if ← isThere path then
    let text ← Session.request (FileAccess.read path) FileError.message
    match Project.ofText? text with
    | some project => return project
    | none => Session.fail ("Invalid " ++ Project.fileName)
  else return Project.default

def readNamed (path : String) : Session m String :=
  Session.request (FileAccess.read path) fun _ => "Failed to read " ++ path

/-- The name of an input and its text. -/
def readInput : InputSource → Session m (String × List Char)
  | .inline text => return ("<text>", text.toList)
  | .file path => return (path, (← readNamed path).toList)
  | .missing => Session.fail "Provide an input file or --text"

/-- Shows the diagnostics of a text on the standard error stream. -/
def reportDiagnostics (name : String) (ds : List Diagnostic) (normal : List Char) :
    Session m Unit := do
  if !ds.isEmpty then
    Session.warn ("⚠ " ++ name ++ " recovered from " ++ Text.decimal ds.length ++
      " problem(s)\n")
    Session.warn (Diagnostic.highlightAll name normal ds)

/-- Reads the input under the settings of the project and reports its
diagnostics. -/
def readReported (input : InputSource) :
    Session m (Project × String × List Char × Reading) := do
  let project ← loadProject
  let (name, text) ← readInput input
  let reading := project.editor.read text
  reportDiagnostics name reading.diagnostics reading.normal
  return (project, name, text, reading)

/-! ## The commands on one text -/

def readingJson (reading : Reading) : Json :=
  .object [("tree", reading.root.toJson),
    ("diagnostics", .array (reading.diagnostics.map Diagnostic.toJson))]

def runParse (input : InputSource) (compact : Bool) : Session m Unit := do
  let (_, _, _, reading) ← readReported input
  let json := readingJson reading
  Session.say (if compact then json.compact else json.pretty)

/-- Whether a text is the given canonical one; line breaks at its end do not
count. -/
def isCanonical (text canonical : List Char) : Bool :=
  (text.reverse.dropWhile fun c => c == '\r' || c == '\n').reverse == canonical

def runFormat (input : InputSource) (check : Bool) : Session m Unit := do
  let (_, name, text, reading) ← readReported input
  let canonical := reading.root.source
  if !check then Session.say (String.ofList canonical)
  else if isCanonical text canonical then Session.say ("✓ " ++ name ++ " is canonical")
  else Session.fail (name ++ " is not in canonical form")

def runCount (input : InputSource) (ceiling : Option UInt64) : Session m Unit := do
  let (project, _, _, reading) ← readReported input
  let ceiling := ceiling.getD project.editor.variationCeiling
  match reading.root.variations ceiling with
  | .finite n => Session.say (Text.decimal n.toNat)
  | .overflow =>
    Session.say ("overflow (more than " ++ Text.decimal (effectiveCeiling ceiling).toNat ++ ")")

/-- The most renderings that are made at once: as many as there are headers of
24 bytes in half of a 64-bit address space. -/
def maxSamples : Nat := ((1 <<< 63) - 1) / 24

def runRender (input : InputSource) (samples : Nat) (seed : UInt64) : Session m Unit := do
  let (_, _, _, reading) ← readReported input
  if maxSamples < samples then throw .overflow
  let (texts, _) := reading.root.samples Seeded.source.picker samples (Seeded.start seed)
  texts.forM fun text => Session.say (String.ofList text)

def runEnumerate (input : InputSource) (limit : UInt64) : Session m Unit := do
  let (_, _, _, reading) ← readReported input
  match reading.root.listing limit with
  | .ok texts => texts.forM fun text => Session.say (String.ofList text)
  | .error e => Session.fail e.message

/-! ## Editing -/

/-- The steps of a script file. -/
def readScript (path : String) : Session m (List Step) := do
  match Script.ofText? (← readNamed path) with
  | some steps => return steps
  | none => Session.fail ("Invalid script " ++ path)

/-- The account of a run in one line. -/
def summaryLine (run : ScriptRun) : String :=
  "✓ " ++ Text.decimal run.summary.applied ++ " applied, " ++
    Text.decimal run.summary.unchanged ++ " unchanged, " ++
    Text.decimal run.summary.rejected ++ " rejected (version " ++
    Text.decimal run.document.version.toNat ++ ", " ++ run.document.variations.display ++
    " variations)\n"

def runEdit (input : InputSource) (script : String) (json strict : Bool) : Session m Unit := do
  let project ← loadProject
  let (name, text) ← readInput input
  -- an unreadable script ends the session before anything is shown
  let steps ← readScript script
  let d := Document.ofText text project.editor
  reportDiagnostics name d.diagnostics (Text.normalize text)
  let run := d.runScript strict steps
  match run.stopped, run.rejections with
  -- a strict run stops at its only rejection and shows nothing else
  | true, r :: _ => Session.fail ("Step " ++ r.place ++ " rejected: " ++ r.reason)
  | _, rejections =>
    rejections.forM fun r => Session.warn ("✗ step " ++ r.place ++ ": " ++ r.reason ++ "\n")
    if json then Session.say run.document.tree.toJson.pretty
    else Session.say (String.ofList run.document.source)
    Session.warn (summaryLine run)

/-! ## Projects -/

/-- The texts below a directory, in the order of the names that lead to them. -/
def findTexts (directory extension : String) : Session m (List String) := do
  let found ← Session.ask (FileAccess.filesBelow directory)
  let texts := found.filter fun names => (names.getLast?.bind Files.extension?) == some extension
  return (texts.mergeSort fun a b => !decide (b < a)).map fun names =>
    Files.join directory ("/".intercalate names)

/-- Reads one text, reports on it, and gives the number of its diagnostics. -/
def checkText (settings : Settings) (path : String) : Session m Nat := do
  let text ← Session.request (FileAccess.read path) FileError.message
  let reading := settings.read text.toList
  reportDiagnostics path reading.diagnostics reading.normal
  let sign := if reading.diagnostics.isEmpty then "✓" else "⚠"
  Session.say (sign ++ " " ++ path ++ " (" ++ (settings.count reading.root).display ++
    " variations)")
  return reading.diagnostics.length

def runCheck (input : Option String) (strict : Bool) : Session m Unit := do
  let project ← loadProject
  let path ← match input with
    | some path => pure path
    | none => fromWorkingDirectory project.srcDir
  Session.say "🔍 Checking choice text"
  Session.say ("   Input: " ++ path)
  Session.say ""
  let texts ← match ← Session.ask (FileAccess.kind? path) with
    | some .file => pure [path]
    | some .directory => findTexts path project.extension
    | _ => Session.fail ("Input path does not exist: " ++ path)
  let problems := (← texts.mapM (checkText project.editor)).foldl (· + ·) 0
  Session.say ""
  Session.say ("   Files checked: " ++ Text.decimal texts.length)
  if problems > 0 then
    Session.say ("   Recovered problems: " ++ Text.decimal problems)
  else
    Session.say "   ✓ No issues found!"
  if strict && problems > 0 then
    Session.fail (Text.decimal problems ++ " problem(s) found")

/-- The text of the example that a new project starts with. -/
def exampleText : String :=
  "\x7bHello|Hi|Greetings\x7d \x7bworld|there|\x7bdear|old\x7d friend\x7d! " ++
    "How \x7bare|were\x7d you?\n"

def writeFile (path content : String) : Session m Unit :=
  Session.request (FileAccess.write path content) FileError.message

def runInit (srcDir extension : String) (force : Bool) : Session m Unit := do
  let projectFile ← fromWorkingDirectory Project.fileName
  if (← isThere projectFile) && !force then
    Session.say ("⚠️ " ++ Project.fileName ++ " already exists")
    Session.say "Use --force to overwrite"
  else
    Session.say "📝 Initializing choice text project..."
    let directory ← fromWorkingDirectory srcDir
    if !(← isThere directory) then
      Session.request (FileAccess.makeDirectory directory) FileError.message
      Session.say ("  ✓ Created " ++ srcDir ++ "/")
    let exampleName := "example." ++ extension
    let exampleFile := Files.join directory exampleName
    if !(← isThere exampleFile) then
      writeFile exampleFile exampleText
      Session.say ("  ✓ Created " ++ exampleName)
    let project : Project := ⟨srcDir, extension, Settings.default⟩
    writeFile projectFile project.toJson.pretty
    Session.say ("  ✓ Created " ++ Project.fileName)
    Session.say ""
    Session.say "✅ Project initialized!"
    Session.say ""
    Session.say "Next steps:"
    Session.say ("  1. Edit " ++ srcDir ++ "/" ++ exampleName)
    Session.say ("  2. Run: " ++ programName ++ " check")
    Session.say ("  3. Run: " ++ programName ++ " render " ++ srcDir ++ "/" ++ exampleName ++
      " -n 5")

/-! ## The program -/

/-- Runs a command. Renderings without a seed of their own are drawn from
`chance`. -/
def runCommand (chance : UInt64) : Command → Session m Unit
  | .init srcDir extension force => runInit srcDir extension force
  | .parse input compact => runParse input compact
  | .format input check => runFormat input check
  | .count input ceiling => runCount input ceiling
  | .render input samples seed => runRender input samples (seed.getD chance)
  | .enumerate input limit => runEnumerate input limit
  | .edit input script json strict => runEdit input script json strict
  | .check input strict => runCheck input strict

/-- How the program is called. -/
def usage : String :=
  "Usage: " ++ programName ++
    " [-v] <init|parse|format|count|render|enumerate|edit|check> [options] [input]"

/-- Runs the program with its arguments. -/
def run (chance : UInt64) (args : List String) : m Output :=
  match Arguments.parse args with
  | .error e => pure ⟨2, "", "error: " ++ e.message ++ "\n\n" ++ usage ++ "\n"⟩
  | .ok .help => pure ⟨0, usage ++ "\n", ""⟩
  | .ok .version => pure ⟨0, programName ++ " " ++ version ++ "\n", ""⟩
  | .ok (.run command) => (runCommand chance command).output

end Spintax.CommandLine
