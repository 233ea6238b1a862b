import NyanyaAgent.EnvFile.Readers

/-!
# Updates of an environment file

`updateEnvFile` of the command line: assignments of the updated keys are replaced where they
stand, the others are appended behind a marker.
-/
namespace NyanyaAgent.EnvFile
open NyanyaAgent.Text

/-- The own properties of the `updates` object, in their order. -/
abbrev Updates := List (List Char × List Char)

/-- The names that `in` finds in every plain object. -/
def inheritedNames : List (List Char) :=
  ["constructor".toList, "__defineGetter__".toList, "__defineSetter__".toList,
    "hasOwnProperty".toList, "__lookupGetter__".toList, "__lookupSetter__".toList,
    "isPrototypeOf".toList, "propertyIsEnumerable".toList, "toString".toList, "valueOf".toList,
    "__proto__".toList, "toLocaleString".toList]

/-- What a template makes of a member of `Object.prototype`. -/
def memberText (key : List Char) : List Char :=
  if key = "__proto__".toList then "[object Object]".toList
  else "function ".toList ++ ((if key = "constructor".toList then "Object".toList else key) ++
    "() \x7b [native code] \x7d".toList)

/-- `updates[key]`, when `key in updates`. -/
def lookupUpdate (updates : Updates) (key : List Char) : Option (List Char) :=
  match updates.find? fun e => e.1 = key with
  | some e => some e.2
  | none => if (inheritedNames.any fun n => n = key) = true then some (memberText key) else none

def lineEnd (c : Char) : Bool := c = '\r' || c = '\n'

def serializeValue (value : List Char) : Except String (List Char) :=
  if value.any lineEnd = true then .error "Environment values cannot contain newlines" else .ok value

/-- The key of a line that is neither blank nor a comment and has an equals sign. -/
def lineKey (raw : List Char) : Option (List Char) :=
  let trimmed := strip jsSpace raw
  if trimmed = [] ∨ trimmed.head? = some '#' then none
  else (splitFirst '=' trimmed).map fun s => strip jsSpace s.1

/-- The key and the new value of a line whose key is in the updates. -/
def lineUpdate (updates : Updates) (raw : List Char) : Option (List Char × List Char) :=
  (lineKey raw).bind fun key => (lookupUpdate updates key).map fun value => (key, value)

/-- The loop over the lines, with the keys written before: the keys written after it, and the
lines. -/
def updateLines (updates : Updates) :
    List (List Char) → List (List Char) → Except String (List (List Char) × List (List Char))
  | written, [] => .ok (written, [])
  | written, raw :: lines =>
    match lineUpdate updates raw with
    | none => (updateLines updates written lines).map fun r => (r.1, raw :: r.2)
    | some (key, value) =>
      if (written.any fun k => k = key) = true then updateLines updates written lines
      else (serializeValue value).bind fun value =>
        (updateLines updates (key :: written) lines).map fun r =>
          (r.1, (key ++ '=' :: value) :: r.2)

def pendingLines : Updates → Except String (List (List Char))
  | [] => .ok []
  | e :: pending => (serializeValue e.2).bind fun value =>
    (pendingLines pending).map fun lines => (e.1 ++ '=' :: value) :: lines

def updateMarker : List Char := "# Updated by nyanya config.".toList

def isNewline (c : Char) : Bool := c = '\n'

/-- The text of lines: without the empty ones at its end, and with a last line end. -/
def linesText (lines : List (List Char)) : List Char :=
  rstrip isNewline (['\n'].intercalate lines) ++ ['\n']

def appendPending (lines : List (List Char)) (pending : Updates) :
    Except String (List (List Char)) :=
  if pending = [] then .ok lines
  else (pendingLines pending).map fun added =>
    lines ++ ((if lines.getLast?.any (fun last => last ≠ []) = true then [[]] else []) ++
      updateMarker :: added)

def updateEnvText (updates : Updates) (existing : List Char) : Except String (List Char) :=
  match updates.find? fun e => ¬ ValidKey e.1 with
  | some e => .error ("Invalid environment key: " ++ String.ofList e.1)
  | none =>
    (updateLines updates [] (tsLines existing)).bind fun r =>
      (appendPending r.2 (updates.filter fun e => (r.1.any fun k => k = e.1) = false)).map linesText

/-- `updateEnvFile` on a file or its absence: the answer, and the file afterwards. -/
def updateEnvFile (file : Option (List Char)) (updates : Updates) :
    Except String Unit × Option (List Char) :=
  match updateEnvText updates (file.getD []) with
  | .error e => (.error e, file)
  | .ok text => (.ok (), some text)

end NyanyaAgent.EnvFile
