import PrefixArith.Eval
import PrefixArith.Text.Lines

/-!
# Running lines

A line can be run on its own, in a session, where it finds what the requests before it have bound, and
in a report, as one line of many. The command line program writes a report on its input.

> `entriesOf_append`: the entries of two rows of lines are those of the first and then those of the
> second.
> `length_warnings`: there are as many warnings as failures.
-/

namespace PrefixArith

/-! ## One line

A line is evaluated on its own: it is read as one expression and nothing else, evaluated in an
environment without bindings, and reported as the tree and its value. The tree is shown in the
environment that its evaluation leaves.
-/

/-- What is reported of a line with a value. -/
def resultText (tree : String) (v : Value) : String := tree ++ " = " ++ v.text

/-- Reads and evaluates one line. -/
def runLine (line : String) : Except LineFailure String :=
  match parse true line with
  | .error err => .error (.parse err)
  | .ok e =>
    match e.eval ∅ with
    | ⟨.error failure, _⟩ => .error (.eval failure)
    | ⟨.ok v, env⟩ =>
      match e.render env with
      | .error fault => .error (.eval (.fault fault))
      | .ok tree => .ok (resultText tree v)

/-! ## Sessions

A session is a row of requests over one environment. Each request names a tree, as a line to be read
or as the tree itself, and what to do with it; it is answered by an outcome, whose environment is the
one that the next request finds. A request that fails, whether its line cannot be read or its
evaluation stops part of the way, does not end the session.
-/

/-- What to do with a tree. -/
inductive Query where
  | eval
  | evalNumber
  | render
  | isReference
deriving DecidableEq, Repr

/-- What comes of it. -/
inductive Answer where
  | value (v : Value)
  | number (n : Int)
  | text (s : String)
  | flag (b : Bool)
deriving DecidableEq, Repr

/-- The tree that a request is about. -/
inductive Subject where
  | line (s : String)
  | tree (e : Expr)

/-- One step of a session. -/
structure Request where
  query : Query
  subject : Subject

/-- An answer or a failure, and the environment after it. -/
structure Response where
  result : Except LineFailure Answer
  env : Env

/-- The response that an outcome is, its result made into an answer. -/
def Outcome.toResponse {α : Type} (o : Outcome α) (answer : α → Answer) : Response :=
  match o with
  | ⟨.ok a, env⟩ => ⟨.ok (answer a), env⟩
  | ⟨.error failure, env⟩ => ⟨.error (.eval failure), env⟩

/-- Answers a query about the tree `e`. Only evaluation can change the environment. -/
def Query.ask (q : Query) (e : Expr) (env : Env) : Response :=
  match q with
  | .eval => (e.eval env).toResponse .value
  | .evalNumber => (e.evalNumber env).toResponse .number
  | .render => Outcome.toResponse ⟨(e.render env).mapError .fault, env⟩ .text
  | .isReference => ⟨.ok (.flag e.isReference), env⟩

/-- The tree of a subject; a line has to be one expression and nothing else. -/
def Subject.tree? : Subject → Except ParseError Expr
  | .line s => parse true s
  | .tree e => .ok e

/-- Answers one request. -/
def Request.respond (r : Request) (env : Env) : Response :=
  match r.subject.tree? with
  | .ok e => r.query.ask e env
  | .error err => ⟨.error (.parse err), env⟩

/-- The responses to a row of requests, each over the environment that the one before it left. -/
def session (env : Env) : List Request → List Response
  | [] => []
  | r :: rs =>
    let response := r.respond env
    response :: session response.env rs

/-- The environment that a row of requests leaves. -/
def envAfter (env : Env) (rs : List Request) : Env :=
  rs.foldl (fun env r => (r.respond env).env) env

/-! ## Reports

A report goes through lines one after another. A blank line is passed over; every other line gives
one entry, and each entry one line of output, an answer or an error. A line with an error is also
the subject of a warning, which shows the line itself.

Lines do not see each other: an entry depends on its line alone (`Entry.ofLine`). A fault would end
the report, as there is no way to report one; but no line gives rise to a malformed tree.
-/

/-- What a line that is not blank adds to a report. -/
inductive Entry where
  /-- The text of the result. -/
  | answer (text : String)
  /-- The line, without its line end, and what is wrong with it. -/
  | failed (line message : String)
deriving DecidableEq, Repr

namespace Entry

/-- The entry of a line that is not blank. -/
def ofLine (line : String) : Except Fault Entry :=
  match runLine line with
  | .ok text => .ok (.answer text)
  | .error failure => failure.message.map (.failed (dropLineEnd line))

/-- The line of output. -/
def output : Entry → String
  | .answer text => text ++ "\n"
  | .failed _ message => "error: " ++ message ++ "\n"

/-- The warning, if there is something wrong. -/
def warning? : Entry → Option String
  | .answer _ => none
  | .failed line message => some ("Failed line " ++ quote line ++ ": " ++ message)

end Entry

/-- The entries of `lines`, one for each that is not blank. -/
def entriesOf : (lines : List String) → Except Fault (List Entry)
  | [] => .ok []
  | line :: lines =>
    if isBlankText line then entriesOf lines
    else
      match Entry.ofLine line with
      | .error fault => .error fault
      | .ok entry => (entriesOf lines).map (entry :: ·)

/-- What there is to say about a row of lines. -/
structure Report where
  entries : List Entry
deriving DecidableEq, Repr

namespace Report

/-- The report on `lines`. -/
def ofLines (lines : List String) : Except Fault Report := (entriesOf lines).map Report.mk

/-- Everything that the report writes. -/
def output (r : Report) : String := String.join (r.entries.map Entry.output)

/-- The warnings, in order. -/
def warnings (r : Report) : List String := r.entries.filterMap Entry.warning?

/-- How many lines failed. -/
def failures (r : Report) : Nat := r.entries.countP (·.warning?.isSome)

theorem length_warnings (r : Report) : r.warnings.length = r.failures := by
  rw [warnings, failures, List.length_filterMap_eq_countP]

end Report

theorem entriesOf_cons_of_blank {line : String} (h : isBlankText line) (lines : List String) :
    entriesOf (line :: lines) = entriesOf lines := by
  rw [entriesOf, if_pos h]

theorem entriesOf_cons_congr {lines lines' : List String} (h : entriesOf lines = entriesOf lines')
    (line : String) : entriesOf (line :: lines) = entriesOf (line :: lines') := by
  rw [entriesOf, entriesOf, h]

theorem entriesOf_append (front back : List String) :
    entriesOf (front ++ back) =
      (entriesOf front).bind fun es => (entriesOf back).map (es ++ ·) := by
  induction front with
  | nil => cases h : entriesOf back <;> simp [entriesOf, Except.bind, Except.map, h]
  | cons line front ih =>
    rw [List.cons_append, entriesOf, entriesOf]
    split
    · exact ih
    · split
      · rfl
      · rw [ih]
        cases entriesOf front with
        | error fault => rfl
        | ok es => cases entriesOf back <;> rfl

/-! ## Transcripts

What the command line program does with its input: the text is cut into lines, whatever ends them,
and reported on. The output goes to one stream, and the warnings, a line for each, to another.
Failed lines are no failure of the program.
-/

/-- The lines of a text from outside. -/
def inputLines (stdin : String) : List String :=
  linesOf (String.ofList (universalNewlines stdin.toList))

/-- All that the program writes, and its exit code. -/
structure Transcript where
  stdout : String
  stderr : String
  exitCode : UInt32
deriving DecidableEq, Repr

namespace Transcript

/-- A warning as a line of its own. -/
def warningLine (warning : String) : String := "WARNING: " ++ warning ++ "\n"

/-- The transcript of a report. -/
def ofReport (r : Report) : Transcript where
  stdout := r.output
  stderr := String.join (r.warnings.map warningLine)
  exitCode := 0

/-- The transcript of a run over the input `stdin`. -/
def ofInput (stdin : String) : Except Fault Transcript :=
  (Report.ofLines (inputLines stdin)).map ofReport

end Transcript

end PrefixArith
