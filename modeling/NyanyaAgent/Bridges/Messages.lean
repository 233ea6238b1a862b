import NyanyaAgent.EnvFile.Readers

/-!
# Messages

`split_message` of `bridge_store.py`: a text as the chunks a chat service takes.
-/
namespace NyanyaAgent.Bridges
open NyanyaAgent.Text NyanyaAgent.EnvFile

/-- `current.rfind("\n", 0, limit)`. -/
def lastNewline (limit : ℕ) (current : List Char) : Option ℕ :=
  (List.range (min limit current.length)).reverse.find? fun i => current[i]? = some '\n'

/-- Where the text is split: at the last newline in reach, unless it is in the first half. -/
def splitPoint (limit : ℕ) (current : List Char) : ℕ :=
  match lastNewline limit current with
  | some i => if i < limit / 2 then limit else i
  | none => limit

/-- The loop of `split_message` and the rest it leaves; the first argument bounds its turns. -/
def splitLoop (limit : ℕ) : ℕ → List Char → Option (List (List Char))
  | 0, _ => none
  | n + 1, current =>
    if limit < current.length then
      (splitLoop limit n (lstrip pySpace (current.drop (splitPoint limit current)))).map
        fun chunks => rstrip pySpace (current.take (splitPoint limit current)) :: chunks
    else some (if current = [] then [] else [current])

/-- `split_message`; `none` when the loop has not ended in time. -/
def splitMessage (turns limit : ℕ) (text : List Char) : Option (List (List Char)) :=
  if text.length ≤ limit then some [text] else splitLoop limit turns text

end NyanyaAgent.Bridges
