/-
# Events

The elements of a parsed database (as ElementTree gives them) and the events
built from them (`event.py`). An attribute that only some child of the event
sets is an option, `none` if it was never set; the text of an empty element is
`none` as well (Python's `None`), so the text of a call is an option of an
option.

Texts are parsed when first needed, and the result is kept. A text that is there
says what its symbol is (`textSymbol`). Without a text the parser, which all
events share, goes on with what its lexer has left of the texts before
(`parseText`): after `int()` has raised in the middle of a text that is the rest
of this text. Calls are asked for only where they have a text, so this concerns
the conditions.

Key definitions: `Element`, `Event`, `ExecNode.parseEvent`, `textSymbol`,
`parseText`, `CallAttributes.call`, `Event.constraint`.
-/
import Apisan.Parse.SParser

namespace Apisan

open Python

/-- An element: its tag, its text before the first child, and its children. -/
inductive Element
  | mk (tag : String) (text : Option String) (children : List Element)

namespace Element

def tag : Element → String
  | mk tag _ _ => tag

def text : Element → Option String
  | mk _ text _ => text

def children : Element → List Element
  | mk _ _ children => children

/-- The first child with a tag. -/
def find (e : Element) (tag : String) : Option Element := e.children.find? fun c => c.tag == tag

/-- The children with a tag. -/
def findall (e : Element) (tag : String) : List Element := e.children.filter fun c => c.tag == tag

end Element

inductive EventKind
  | call
  | ret
  | location
  | eop
  | assume
  deriving DecidableEq, Repr

/-- The text of a kind. -/
def EventKind.value : EventKind → String
  | call => "@LOG_CALL"
  | ret => "@LOG_RETURN"
  | location => "@LOG_LOCATION"
  | eop => "@LOG_EOP"
  | assume => "@LOG_ASSUME"

/-- What qualifies a location in the code (`FilenameResolver`'s results). -/
abbrev Resolver := Option String → Except Error (Option String)

/-- `no_resolver`. -/
def noResolver : Resolver := .ok

/-- `ContainedResolver`, with its separator. -/
def containedResolver (container : String) : Resolver
  | some filename => .ok (some (container ++ ":" ++ filename))
  | none => .error .typeError

/-- The attributes of a call or return event. -/
structure CallAttributes where
  callText : Option (Option String)
  code : Option (Option String)
  deriving DecidableEq, Repr

inductive Event
  | call (a : CallAttributes)
  | ret (a : CallAttributes)
  | location (type : Option (Option String)) (code : Option (Option String))
  | eop
  | assume (condText : Option (Option String))
  deriving DecidableEq, Repr

/-- The check of a `KIND` child. -/
def checkKind {α : Type} (kind : EventKind) (child : Element) (a : α) : Except Error α :=
  if child.text = some kind.value then .ok a else .error .assertionError

/-- A child of a call or return event; `tag` is `CALL` or `RETURN`. -/
def callChild (kind : EventKind) (tag : String) (resolver : Resolver) (a : CallAttributes)
    (child : Element) : Except Error CallAttributes :=
  if child.tag = "KIND" then checkKind kind child a
  else if child.tag = tag then .ok { a with callText := some child.text }
  else if child.tag = "CODE" then do
    let code ← resolver child.text
    .ok { a with code := some code }
  else .error .valueError

/-- `CallEvent.__init__`. -/
def callEvent (event : Element) (resolver : Resolver) : Except Error Event := do
  let a ← event.children.foldlM (callChild .call "CALL" resolver) ⟨none, none⟩
  .ok (.call a)

/-- `ReturnEvent.__init__`. -/
def returnEvent (event : Element) (resolver : Resolver) : Except Error Event := do
  let a ← event.children.foldlM (callChild .ret "RETURN" resolver) ⟨none, none⟩
  .ok (.ret a)

/-- A child of a location event. A `LOC` child raises: the class has no
`parse_symbol`. -/
def locationChild (resolver : Resolver) (a : Option (Option String) × Option (Option String))
    (child : Element) : Except Error (Option (Option String) × Option (Option String)) :=
  if child.tag = "KIND" then checkKind .location child a
  else if child.tag = "LOC" then .error .attributeError
  else if child.tag = "TYPE" then .ok (some child.text, a.2)
  else if child.tag = "CODE" then do
    let code ← resolver child.text
    .ok (a.1, some code)
  else .error .valueError

/-- `LocationEvent.__init__`. -/
def locationEvent (event : Element) (resolver : Resolver) : Except Error Event := do
  let a ← event.children.foldlM (locationChild resolver) (none, none)
  .ok (.location a.1 a.2)

/-- `EOPEvent.__init__`. -/
def eopEvent (event : Element) : Except Error Event :=
  event.children.foldlM (fun a child =>
    if child.tag = "KIND" then checkKind .eop child a else .error .valueError) .eop

/-- A child of an assume event. -/
def assumeChild (a : Option (Option String)) (child : Element) :
    Except Error (Option (Option String)) :=
  if child.tag = "KIND" then checkKind .assume child a
  else if child.tag = "COND" then .ok (some child.text)
  else .error .valueError

/-- `AssumeEvent.__init__`. -/
def assumeEvent (event : Element) : Except Error Event := do
  let condText ← event.children.foldlM assumeChild none
  .ok (.assume condText)

/-- `ExecNode._parse_event`, on the `EVENT` child of a node. -/
def ExecNode.parseEvent (resolver : Resolver) : Option Element → Except Error Event
  | none => .error .typeError
  | some node =>
    match node.children with
    | [] => .error .indexError
    | kind :: _ =>
      if kind.tag ≠ "KIND" then .error .assertionError
      else if kind.text = some EventKind.call.value then callEvent node resolver
      else if kind.text = some EventKind.ret.value then returnEvent node resolver
      else if kind.text = some EventKind.location.value then locationEvent node resolver
      else if kind.text = some EventKind.eop.value then eopEvent node
      else if kind.text = some EventKind.assume.value then assumeEvent node
      else .error .valueError

/-- The symbol of a text by itself; none without a text. -/
def textSymbol (text : Option String) : Option Symbol := text.bind SParser.parseSymbol

/-- `Event._parse_symbol`, with what the lexer of the shared parser has left: a
text replaces it. An exception of the parser counts as no symbol. -/
def parseText (left : SParser.Unread) (text : Option String) : Option Symbol × SParser.Unread :=
  let (symbol, left) := SParser.parseUnread (text.elim left SParser.Unread.ofText)
  (match symbol with
    | .ok s => s
    | .error _ => none, left)

/-- A text that is there has its own symbol, whatever is left. -/
theorem parseText_some (left : SParser.Unread) (text : String) :
    (parseText left (some text)).1 = textSymbol (some text) := rfl

/-- The value of an attribute that may never have been set. -/
def getAttribute {α : Type} (a : Option α) : Except Error α :=
  match a with
  | some a => .ok a
  | none => .error .attributeError

theorem getAttribute_eq_ok {α : Type} {x : Option α} {a : α} : getAttribute x = .ok a ↔ x = some a := by
  cases x <;> simp [getAttribute]

namespace CallAttributes

/-- `call`: the symbol of the text, if it is a call. Every checker asks for it
after `is_call` or `is_return`, so that there is a text. -/
def call (a : CallAttributes) : Except Error (Option (Symbol × List Symbol)) := do
  let text ← getAttribute a.callText
  .ok (match textSymbol text with
    | some (.call name args) => some (name, args)
    | _ => none)

/-- `call_name`: the text up to the first parenthesis, if there is one. -/
def callName (a : CallAttributes) : Except Error (Option String) := do
  let text ← getAttribute a.callText
  .ok (text.bind fun t =>
    if t.toList.contains '(' then some (String.ofList (t.toList.takeWhile (· != '('))) else none)

end CallAttributes

namespace Event

/-- The condition of an event as its own text has it. Only an assume event has
one. -/
def ownCond : Event → Option Symbol
  | assume (some text) => textSymbol text
  | _ => none

/-- The symbol and the constraints an event records, if the text of its condition
parses to a constraint symbol. -/
def constraint (event : Event) : Option (Symbol × List (ℤ × ℤ)) :=
  match event.ownCond with
  | some (.constraint symbol constraints) => some (symbol, constraints)
  | _ => none

/-- The event can be asked for its condition, if it is an assume event. -/
def hasCond : Event → Bool
  | assume condText => condText.isSome
  | _ => true

/-- `is_eop`. -/
def isEop : Event → Bool
  | eop => true
  | _ => false

end Event
end Apisan
