import Eligibility.Evaluation.Run
import Eligibility.Grammar.Machine

/-!
# Catalogs

A catalog holds rules under identifiers, each with the text from which it was read. An identifier is
taken once and for all. `Catalog.attempt` is a request to insert a rule, with its answer and the
catalog that is there afterwards, whether the request was granted or not; `Catalog.insert` is for
callers that do not go on with a catalog which has refused something.

A rule file is the text of a catalog, with one `identifier: rule` in a line. Blank lines and lines
that start with `#` are skipped.
-/

namespace Eligibility

/-- A rule with the text from which it was read. -/
structure CatalogEntry where
  source : String
  rule : Rule
  deriving DecidableEq, Inhabited

/-- Rules under identifiers, and the limits under which rules are read into the catalog. -/
structure Catalog where
  rules : Directory CatalogEntry
  limits : Limits

/-- Why a catalog refuses a rule, or does not answer. -/
inductive CatalogError
  | duplicateRule (id : String)
  | unknownRule (id : String)
  /-- A line of a rule file has no colon, or nothing before it. Lines count from one. -/
  | invalidLine (line : Nat)
  /-- The text of the rule is no rule. -/
  | unreadable (id : String) (cause : ParseError)
  deriving DecidableEq

namespace CatalogError

def message : CatalogError → String
  | duplicateRule id => "duplicate rule id '" ++ id ++ "'"
  | unknownRule id => "unknown rule id '" ++ id ++ "'"
  | invalidLine line => "line " ++ toString line ++ ": expected '<id>: <rule>'"
  | unreadable id cause => "rule '" ++ id ++ "': " ++ cause.message

end CatalogError

namespace Catalog

/-- A catalog without rules. -/
def empty (limits : Limits) : Catalog := ⟨∅, limits⟩

instance : Inhabited Catalog := ⟨empty default⟩

def size (k : Catalog) : Nat := k.rules.size

def isEmpty (k : Catalog) : Bool := k.rules.isEmpty

/-- The identifiers, in order. -/
def ids (k : Catalog) : List String := k.rules.names

def get? (k : Catalog) (id : String) : Option Rule := (k.rules.get? id).map (·.rule)

/-- The text from which a rule was read. -/
def source? (k : Catalog) (id : String) : Option String := (k.rules.get? id).map (·.source)

/-- The rule of an identifier that has to be in the catalog. -/
def find (k : Catalog) (id : String) : Except CatalogError Rule :=
  match k.get? id with
  | none => .error (.unknownRule id)
  | some r => .ok r

/-- A rule to be inserted. -/
structure Request where
  id : String
  text : String
  deriving DecidableEq

/-- Reads a rule and adds it: the answer, and the catalog afterwards. A taken identifier is refused
before the text is looked at. -/
def attempt (k : Catalog) (q : Request) : Except CatalogError Unit × Catalog :=
  if (k.rules.get? q.id).isSome then (.error (.duplicateRule q.id), k)
  else
    match Rule.parse k.limits q.text with
    | .error cause => (.error (.unreadable q.id cause), k)
    | .ok r => (.ok (), { k with rules := k.rules.insert q.id ⟨q.text, r⟩ })

/-- The catalog with the rule added, if the request is granted. -/
def insert (k : Catalog) (id text : String) : Except CatalogError Catalog :=
  match k.attempt ⟨id, text⟩ with
  | (.ok (), k') => .ok k'
  | (.error e, _) => .error e

/-- Joins rules of the catalog from the left. The first unknown identifier is the error. -/
def combine (k : Catalog) (op : Connective) (ids : List String) :
    Except CatalogError (Option Rule) := do
  let rules ← ids.mapM k.find
  return Rule.combine op rules

/-- Evaluates a rule of the catalog leniently. -/
def evaluate (k : Catalog) (id : String) (record : Record) : Except CatalogError Bool := do
  let r ← k.find id
  return Eligibility.evaluate (some r) record

/-- The catalog in one phrase. -/
def render (k : Catalog) : String := "RuleBook(" ++ toString k.size ++ " rules)"

/-! ### Rule files -/

/-- The lines of a text. The end of the last line may be left out. -/
def lines (cs : List Char) : List (List Char) :=
  match cs with
  | [] => []
  | c :: cs =>
    (c :: cs).takeWhile (· ≠ '\n') :: lines (((c :: cs).dropWhile (· ≠ '\n')).drop 1)
termination_by cs.length
decreasing_by
  have := (List.dropWhile_sublist (fun d : Char => decide (d ≠ '\n')) (l := cs)).length_le
  simp only [List.dropWhile_cons, List.length_drop]
  split <;> simp only [List.length_cons] <;> omega

/-- Is there no rule in this line, trimmed? -/
def isSkipped (line : List Char) : Bool :=
  match line with
  | [] => true
  | c :: _ => c == '#'

/-- Cuts a line at its first colon into the identifier and the rule, both trimmed. -/
def splitLine? (line : List Char) : Option (String × String) :=
  match line.dropWhile (· ≠ ':') with
  | [] => none
  | _ :: text =>
    -- any other colon belongs to the rule
    let id := trimBlanks (line.takeWhile (· ≠ ':'))
    if id = [] then none else some (String.ofList id, String.ofList (trimBlanks text))

/-- Adds the rule of a line, if there is one in it. -/
def insertLine (k : Catalog) (number : Nat) (line : List Char) : Except CatalogError Catalog :=
  let line := trimBlanks line
  if isSkipped line then .ok k
  else
    match splitLine? line with
    | none => .error (.invalidLine number)
    | some (id, text) => k.insert id text

/-- Adds the rules of numbered lines. -/
def insertLines (k : Catalog) (number : Nat) : List (List Char) → Except CatalogError Catalog
  | [] => .ok k
  | line :: rest => do
    let k ← k.insertLine number line
    k.insertLines (number + 1) rest

/-- Reads a rule file into a new catalog. The first line at fault is the error. -/
def ofText (text : String) : Except CatalogError Catalog :=
  insertLines default 1 (lines text.toList)

/-- Why bytes are no rule file. -/
inductive FileError
  /-- The bytes are not UTF-8. -/
  | notText
  | refused (cause : CatalogError)
  deriving DecidableEq

/-- Reads a rule file from its bytes. -/
def ofBytes (bytes : ByteArray) : Except FileError Catalog :=
  match String.fromUTF8? bytes with
  | none => .error .notText
  | some text => (ofText text).mapError .refused

end Catalog

end Eligibility
