/-
# XML documents

A reader of XML 1.0 documents, without an XML declaration and a document type
declaration: characters and references, CDATA sections, comments, processing
instructions, and tags with attributes. It makes of each element its tag, its
text before the first child, and its children; comments and processing
instructions leave no trace. What a name stands for under the namespaces in
scope is a parameter (`Namespaces`), which is given the attributes of the start
tags that are open, innermost first.

A token that starts before a `<` ends before it, or with the end of a comment,
of a CDATA section or of a processing instruction (`token_used`). A text without
`<`, `&` and `]]>` is read as itself (`scan_plain`), and an escaped text as what it
stands for (`scan_escape`).

Key definitions: `Xml.token`, `Xml.Scan`, `Xml.step`, `Xml.read`, `Xml.Plain`,
`Xml.escape`.
Key theorems: `Xml.token_used`, `Xml.scan_plain`, `Xml.scan_escape`.
-/
import Mathlib.Data.List.Basic
import Mathlib.Data.List.Chain
import Mathlib.Data.List.Infix
import Mathlib.Data.List.TakeWhile

namespace Xml

/-! ### Characters and names -/

/-- The characters of a document. -/
def isChar (c : Char) : Bool :=
  c == '\t' || c == '\n' || c == '\r' || (0x20 ≤ c.toNat && c.toNat ≤ 0xd7ff) ||
    (0xe000 ≤ c.toNat && c.toNat ≤ 0xfffd) || 0x10000 ≤ c.toNat

def isSpace (c : Char) : Bool := c == ' ' || c == '\t' || c == '\n' || c == '\r'

/-- The code point lies in one of the ranges. -/
def inRanges (ranges : List (ℕ × ℕ)) (c : Char) : Bool :=
  ranges.any fun r => r.1 ≤ c.toNat && c.toNat ≤ r.2

/-- The characters a name may start with. -/
def isNameStart (c : Char) : Bool :=
  inRanges [(0x3a, 0x3a), (0x41, 0x5a), (0x5f, 0x5f), (0x61, 0x7a), (0xc0, 0xd6), (0xd8, 0xf6),
    (0xf8, 0x2ff), (0x370, 0x37d), (0x37f, 0x1fff), (0x200c, 0x200d), (0x2070, 0x218f),
    (0x2c00, 0x2fef), (0x3001, 0xd7ff), (0xf900, 0xfdcf), (0xfdf0, 0xfffd), (0x10000, 0xeffff)] c

/-- The characters of a name. -/
def isNameChar (c : Char) : Bool :=
  isNameStart c || inRanges [(0x2d, 0x2e), (0x30, 0x39), (0xb7, 0xb7), (0x300, 0x36f), (0x203f, 0x2040)] c

/-- The name at the front of a text. -/
def name : List Char → Option (List Char × List Char)
  | [] => none
  | c :: cs => if isNameStart c then some (c :: cs.takeWhile isNameChar, cs.dropWhile isNameChar) else none

def skipSpace (cs : List Char) : List Char := cs.dropWhile isSpace

/-- The text before the first `stop`, and what follows that. -/
def before (stop : List Char) : List Char → Option (List Char × List Char)
  | [] => none
  | c :: cs =>
    match (c :: cs).dropPrefix? stop with
    | some rest => some ([], rest)
    | none => (before stop cs).map fun (b, rest) => (c :: b, rest)

/-! ### References -/

def digitValue (c : Char) : Option ℕ :=
  if '0' ≤ c ∧ c ≤ '9' then some (c.toNat - 0x30)
  else if 'a' ≤ c ∧ c ≤ 'f' then some (c.toNat - 0x57)
  else if 'A' ≤ c ∧ c ≤ 'F' then some (c.toNat - 0x37)
  else none

def addDigit (base n : ℕ) (d : Char) : Option ℕ := do
  let v ← digitValue d
  if v < base then some (n * base + v) else none

/-- The character with a number. -/
def charRef (base : ℕ) (ds : List Char) : Option Char :=
  if ds = [] then none
  else do
    let n ← ds.foldlM (addDigit base) 0
    if n.isValidChar ∧ isChar (Char.ofNat n) then some (Char.ofNat n) else none

/-- What a reference stands for, without its `&` and `;`. No entities are
declared. -/
def entity (body : List Char) : Option Char :=
  if body = ['a', 'm', 'p'] then some '&'
  else if body = ['l', 't'] then some '<'
  else if body = ['g', 't'] then some '>'
  else if body = ['q', 'u', 'o', 't'] then some '"'
  else if body = ['a', 'p', 'o', 's'] then some (Char.ofNat 0x27)
  else match body with
    | '#' :: 'x' :: ds => charRef 16 ds
    | '#' :: ds => charRef 10 ds
    | _ => none

/-- A reference, after its `&`. -/
def reference (cs : List Char) : Option (Char × List Char) := do
  let (body, rest) ← before [';'] cs
  let c ← entity body
  some (c, rest)

/-! ### Tags -/

/-- The name and the value of an attribute. -/
abbrev Attribute := List Char × List Char

/-- White space in an attribute's value is read as a blank. -/
def blank (c : Char) : Char := if isSpace c then ' ' else c

/-- An attribute's value, of at most `n` characters. -/
def value : ℕ → List Char → Option (List Char)
  | _, [] => some []
  | 0, _ :: _ => none
  | n + 1, c :: cs =>
    if c = '&' then do
      let (d, rest) ← reference cs
      let ds ← value n rest
      some (d :: ds)
    else if c = '<' ∨ isChar c = false then none
    else do
      let ds ← value n cs
      some (blank c :: ds)

/-- An attribute at the front of a text. -/
def attr (cs : List Char) : Option (Attribute × List Char) := do
  let (n, rest) ← name cs
  match skipSpace rest with
  | '=' :: rest =>
    match skipSpace rest with
    | q :: rest =>
      if "\"'".toList.contains q then do
        let (raw, rest) ← before [q] rest
        let v ← value raw.length raw
        some ((n, v), rest)
      else none
    | [] => none
  | _ => none

/-- The attributes of a tag, and whether it is the tag of an empty element. -/
def attributes : ℕ → List Char → Option ((List Attribute × Bool) × List Char)
  | 0, _ => none
  | n + 1, cs =>
    match skipSpace cs with
    | '>' :: rest => some (([], false), rest)
    | '/' :: '>' :: rest => some (([], true), rest)
    | ds =>
      if ds.length < cs.length then do
        let (a, rest) ← attr ds
        let ((as, empty), rest) ← attributes n rest
        if a.1 ∈ as.map Prod.fst then none else some ((a :: as, empty), rest)
      else none

/-! ### Tokens -/

inductive Token
  /-- a character that stands for itself -/
  | text (c : Char)
  /-- what a reference or a CDATA section stands for -/
  | data (cs : List Char)
  /-- a comment or a processing instruction -/
  | ignored
  | openTag (name : List Char) (attributes : List Attribute)
  | emptyTag (name : List Char) (attributes : List Attribute)
  | closeTag (name : List Char)
  deriving DecidableEq, Repr

def comment (cs : List Char) : Option (Token × List Char) := do
  let (body, rest) ← before ['-', '-'] cs
  match rest with
  | '>' :: rest => if body.all isChar then some (.ignored, rest) else none
  | _ => none

def cdata (cs : List Char) : Option (Token × List Char) := do
  let (body, rest) ← before [']', ']', '>'] cs
  if body.all isChar then some (.data body, rest) else none

def instruction (cs : List Char) : Option (Token × List Char) := do
  let (target, rest) ← name cs
  let (body, rest) ← before ['?', '>'] rest
  if target.map Char.toLower ≠ ['x', 'm', 'l'] ∧ body.all isChar ∧ (body.head?.all isSpace) then
    some (.ignored, rest)
  else none

def closeTag (cs : List Char) : Option (Token × List Char) := do
  let (n, rest) ← name cs
  match skipSpace rest with
  | '>' :: rest => some (.closeTag n, rest)
  | _ => none

def openTag (cs : List Char) : Option (Token × List Char) := do
  let (n, rest) ← name cs
  let ((as, empty), rest) ← attributes (rest.length + 1) rest
  some (if empty then .emptyTag n as else .openTag n as, rest)

/-- What starts with `<`, after that. -/
def markup (cs : List Char) : Option (Token × List Char) :=
  match cs.dropPrefix? ['!', '-', '-'] with
  | some rest => comment rest
  | none =>
    match cs.dropPrefix? ['!', '[', 'C', 'D', 'A', 'T', 'A', '['] with
    | some rest => cdata rest
    | none =>
      match cs.dropPrefix? ['?'] with
      | some rest => instruction rest
      | none =>
        match cs.dropPrefix? ['/'] with
        | some rest => closeTag rest
        | none => openTag cs

/-- The token at the front of a text, and the rest. -/
def token : List Char → Option (Token × List Char)
  | [] => none
  | c :: cs =>
    if c = '<' then markup cs
    else if c = '&' then (reference cs).map fun (d, rest) => (.data [d], rest)
    else if isChar c = true ∧ (c :: cs).dropPrefix? [']', ']', '>'] = none then some (.text c, cs)
    else none

/-- All tokens of a text, at most `n`. -/
def tokens : ℕ → List Char → Option (List Token)
  | _, [] => some []
  | 0, _ :: _ => none
  | n + 1, c :: cs => do
    let (t, rest) ← token (c :: cs)
    let ts ← tokens n rest
    some (t :: ts)

/-! ### Elements -/

/-- How the tag of an element comes from its name. A name without a prefix,
outside all attributes, is the tag; a name that belongs to a namespace is put
after that, in braces. -/
structure Namespaces where
  tagOf : List (List Attribute) → List Char → Option String
  unscoped : ∀ {scopes name}, (∀ as ∈ scopes, as = []) → ':' ∉ name →
    tagOf scopes name = some (String.ofList name)
  expanded : ∀ {scopes name tag}, tagOf scopes name = some tag →
    tag = String.ofList name ∨ tag.toList.head? = some '{'

/-- Every name is its tag: there are no namespaces. -/
def noNamespaces : Namespaces where
  tagOf _ name := some (String.ofList name)
  unscoped := fun _ _ => rfl
  expanded := fun h => .inl (Option.some.inj h).symm

section

variable {E : Type} (mk : String → Option String → List E → E) (ns : Namespaces)

/-- An element that is open: its children so far, latest first. -/
structure Frame (E : Type) where
  name : List Char
  tag : String
  attributes : List Attribute
  text : List Char
  children : List E

/-- The open elements, innermost first, and the document's element if it is
complete. -/
structure State (E : Type) where
  stack : List (Frame E)
  root : Option E

/-- Characters belong to the text of the innermost element before its first
child, and to none after that. -/
def Frame.add (f : Frame E) (cs : List Char) : Frame E :=
  if f.children = [] then { f with text := f.text ++ cs } else f

/-- The text of an element; none if it is empty. -/
def content (cs : List Char) : Option String := if cs = [] then none else some (String.ofList cs)

def Frame.element (f : Frame E) : E := mk f.tag (content f.text) f.children.reverse

/-- A complete element. -/
def State.close (stack : List (Frame E)) (e : E) : State E :=
  match stack with
  | [] => ⟨[], some e⟩
  | f :: fs => ⟨{ f with children := e :: f.children } :: fs, none⟩

/-- The frame of a start tag. Nothing may follow the document's element. -/
def State.push (s : State E) (name : List Char) (attributes : List Attribute) : Option (Frame E) :=
  if s.stack = [] ∧ s.root.isSome then none
  else do
    let tag ← ns.tagOf (attributes :: s.stack.map Frame.attributes) name
    some ⟨name, tag, attributes, [], []⟩

/-- Read a token. -/
def step (s : State E) : Token → Option (State E)
  | .text c =>
    match s.stack with
    | [] => if isSpace c then some s else none
    | f :: fs => some { s with stack := f.add [c] :: fs }
  | .data cs =>
    match s.stack with
    | [] => none
    | f :: fs => some { s with stack := f.add cs :: fs }
  | .ignored => some s
  | .openTag n as => do
    let f ← s.push ns n as
    some { s with stack := f :: s.stack }
  | .emptyTag n as => do
    let f ← s.push ns n as
    some (State.close s.stack (f.element mk))
  | .closeTag n =>
    match s.stack with
    | [] => none
    | f :: fs => if f.name = n then some (State.close fs (f.element mk)) else none

/-- The element of a document's tokens. -/
def build (ts : List Token) : Option E := do
  let s ← ts.foldlM (step mk ns) ⟨[], none⟩
  if s.stack = [] then s.root else none

/-- Line ends are read as one character. -/
def lineEnds : List Char → List Char
  | '\r' :: '\n' :: cs => '\n' :: lineEnds cs
  | '\r' :: cs => '\n' :: lineEnds cs
  | c :: cs => c :: lineEnds cs
  | [] => []

/-- The element of a document. -/
def read (s : String) : Option E := do
  let cs := lineEnds s.toList
  let ts ← tokens cs.length cs
  build mk ns ts

end

/-! ### What is consumed -/

/-- What is read up to `rest` has no `<`. -/
def Reaches (cs rest : List Char) : Prop := ∃ used, cs = used ++ rest ∧ '<' ∉ used

theorem Reaches.refl (cs : List Char) : Reaches cs cs := ⟨[], rfl, List.not_mem_nil⟩

theorem Reaches.trans {as bs cs : List Char} (h : Reaches as bs) (h' : Reaches bs cs) : Reaches as cs := by
  obtain ⟨used, rfl, hused⟩ := h
  obtain ⟨used', rfl, hused'⟩ := h'
  exact ⟨used ++ used', (List.append_assoc _ _ _).symm, by simp [hused, hused']⟩

theorem Reaches.cons {c : Char} {cs rest : List Char} (hc : c ≠ '<') (h : Reaches cs rest) :
    Reaches (c :: cs) rest := by
  obtain ⟨used, rfl, hused⟩ := h
  exact ⟨c :: used, rfl, by simp [hused, hc.symm]⟩

theorem Reaches.dropWhile {p : Char → Bool} (hp : p '<' = false) (cs : List Char) :
    Reaches cs (cs.dropWhile p) := by
  refine ⟨cs.takeWhile p, List.takeWhile_append_dropWhile.symm, fun hmem => ?_⟩
  rw [List.mem_takeWhile_imp hmem] at hp
  cases hp

theorem name_reaches {cs n rest : List Char} (h : name cs = some (n, rest)) : Reaches cs rest := by
  cases cs with
  | nil => cases h
  | cons c cs =>
    rw [name] at h
    split_ifs at h with hc
    cases h
    refine .cons (fun hlt => ?_) (.dropWhile (by decide) cs)
    rw [hlt] at hc
    exact absurd hc (by decide)

theorem skipSpace_reaches (cs : List Char) : Reaches cs (skipSpace cs) := .dropWhile (by decide) cs

theorem before_eq {stop : List Char} : ∀ {cs b rest : List Char}, before stop cs = some (b, rest) →
    cs = b ++ (stop ++ rest)
  | [], b, rest, h => by cases h
  | c :: cs, b, rest, h => by
    rw [before] at h
    cases hdrop : (c :: cs).dropPrefix? stop with
    | some r =>
      rw [hdrop] at h
      cases h
      obtain ⟨stop', hcs, hstop⟩ := List.dropPrefix?_eq_some_iff.mp hdrop
      rw [hcs, eq_of_beq hstop]
      rfl
    | none =>
      rw [hdrop] at h
      obtain ⟨⟨b', r⟩, hb, hmap⟩ := Option.map_eq_some_iff.mp h
      cases hmap
      rw [before_eq hb]
      rfl

theorem charRef_notMem {base : ℕ} {ds : List Char} {c : Char} (h : charRef base ds = some c) :
    '<' ∉ ds := by
  intro hmem
  rw [charRef] at h
  split_ifs at h
  obtain ⟨n, hn, -⟩ := Option.bind_eq_some_iff.mp h
  have hnone : ∀ (ds : List Char) (m : ℕ), '<' ∈ ds → ds.foldlM (addDigit base) m = none := by
    intro ds
    induction ds with
    | nil =>
      intro m hd
      cases hd
    | cons d ds ih =>
      intro m hd
      rw [List.foldlM_cons]
      rcases List.mem_cons.mp hd with rfl | hd
      · rfl
      · cases addDigit base m d with
        | none => rfl
        | some v => exact ih v hd
  rw [hnone ds 0 hmem] at hn
  cases hn

theorem entity_notMem {body : List Char} {c : Char} (h : entity body = some c) :
    '<' ∉ body ∧ body ≠ [] := by
  unfold entity at h
  split_ifs at h with h₁ h₂ h₃ h₄ h₅
  · subst h₁; decide
  · subst h₂; decide
  · subst h₃; decide
  · subst h₄; decide
  · subst h₅; decide
  · split at h
    · have hds := charRef_notMem h
      exact ⟨by simp [hds], by simp⟩
    · have hds := charRef_notMem h
      exact ⟨by simp [hds], by simp⟩
    · cases h

theorem reference_spec {cs rest : List Char} {c : Char} (h : reference cs = some (c, rest)) :
    ∃ body, cs = body ++ ';' :: rest ∧ body ≠ [] ∧ '<' ∉ body := by
  obtain ⟨⟨body, rest'⟩, hbefore, h⟩ := Option.bind_eq_some_iff.mp h
  obtain ⟨d, hd, h⟩ := Option.bind_eq_some_iff.mp h
  cases h
  obtain ⟨hbody, hne⟩ := entity_notMem hd
  exact ⟨body, before_eq hbefore, hne, hbody⟩

theorem value_notMem : ∀ {n : ℕ} {cs v : List Char}, value n cs = some v → '<' ∉ cs
  | _, [], _, _ => List.not_mem_nil
  | 0, _ :: _, _, h => by cases h
  | n + 1, c :: cs, v, h => by
    rw [value] at h
    split_ifs at h with hamp hc
    · obtain ⟨⟨d, rest⟩, hd, h⟩ := Option.bind_eq_some_iff.mp h
      obtain ⟨ds, hds, -⟩ := Option.bind_eq_some_iff.mp h
      obtain ⟨body, rfl, -, hbody⟩ := reference_spec hd
      have hrest := value_notMem hds
      simp [hamp, hbody, hrest]
    · obtain ⟨ds, hds, -⟩ := Option.bind_eq_some_iff.mp h
      have hcs := value_notMem hds
      rw [not_or] at hc
      simp [hcs, Ne.symm hc.1]

theorem attr_reaches {cs rest : List Char} {a : Attribute} (h : attr cs = some (a, rest)) :
    Reaches cs rest := by
  obtain ⟨⟨n, r₁⟩, hn, h⟩ := Option.bind_eq_some_iff.mp h
  have h₁ : Reaches cs (skipSpace r₁) := (name_reaches hn).trans (skipSpace_reaches r₁)
  simp only at h
  split at h
  · rename_i r₂ hr₂
    rw [hr₂] at h₁
    split at h
    · rename_i q r₃ hr₃
      split_ifs at h with hq
      obtain ⟨⟨raw, r₄⟩, hraw, h⟩ := Option.bind_eq_some_iff.mp h
      obtain ⟨v, hv, h⟩ := Option.bind_eq_some_iff.mp h
      cases h
      have hqlt : q ≠ '<' := fun hlt => absurd (hlt ▸ hq) (by decide)
      have h₂ : Reaches ('=' :: r₂) r₃ := by
        refine .cons (by decide) (.trans (skipSpace_reaches r₂) ?_)
        rw [hr₃]
        exact .cons hqlt (.refl r₃)
      have h₃ : Reaches r₃ r₄ := by
        rw [before_eq hraw]
        exact ⟨raw ++ [q], by simp, by simp [value_notMem hv, hqlt.symm]⟩
      exact h₁.trans (h₂.trans h₃)
    · cases h
  · cases h

theorem attributes_reaches : ∀ {n : ℕ} {cs rest : List Char} {x : List Attribute × Bool},
    attributes n cs = some (x, rest) → Reaches cs rest
  | 0, _, _, _, h => by cases h
  | n + 1, cs, rest, x, h => by
    rw [attributes] at h
    have hskip := skipSpace_reaches cs
    split at h
    · rename_i r hr
      cases h
      rw [hr] at hskip
      exact hskip.trans (.cons (by decide) (.refl rest))
    · rename_i r hr
      cases h
      rw [hr] at hskip
      exact hskip.trans (.cons (by decide) (.cons (by decide) (.refl rest)))
    · split_ifs at h
      obtain ⟨⟨a, r₁⟩, ha, h⟩ := Option.bind_eq_some_iff.mp h
      obtain ⟨⟨⟨as, e⟩, r₂⟩, has, h⟩ := Option.bind_eq_some_iff.mp h
      simp only at h
      split_ifs at h
      cases h
      exact hskip.trans ((attr_reaches ha).trans (attributes_reaches has))

/-! ### What a token is made of -/

/-- The characters that a token stands for. -/
def Token.chars : Token → List Char
  | .text c => [c]
  | .data cs => cs
  | _ => []

/-- What ends before any `<`, or with the end of a comment, of a CDATA section
or of a processing instruction. -/
def Closed (used : List Char) : Prop :=
  '<' ∉ used.tail ∨ ∃ cs, ∃ c ∈ ['-', ']', '?'], used = cs ++ [c, '>']

theorem dropPrefix_eq {p cs rest : List Char} (h : cs.dropPrefix? p = some rest) : cs = p ++ rest := by
  obtain ⟨p', rfl, hp⟩ := List.dropPrefix?_eq_some_iff.mp h
  rw [eq_of_beq hp]

theorem comment_spec {cs rest : List Char} {t : Token} (h : comment cs = some (t, rest)) :
    t = .ignored ∧ ∃ body, cs = body ++ ['-', '-', '>'] ++ rest := by
  obtain ⟨⟨body, r⟩, hbody, h⟩ := Option.bind_eq_some_iff.mp h
  simp only at h
  split at h
  · split_ifs at h
    cases h
    exact ⟨rfl, body, by simp [before_eq hbody]⟩
  · cases h

theorem cdata_spec {cs rest : List Char} {t : Token} (h : cdata cs = some (t, rest)) :
    ∃ body, t = .data body ∧ cs = body ++ [']', ']', '>'] ++ rest := by
  obtain ⟨⟨body, r⟩, hbody, h⟩ := Option.bind_eq_some_iff.mp h
  simp only at h
  split_ifs at h
  cases h
  exact ⟨body, rfl, by simp [before_eq hbody]⟩

theorem instruction_spec {cs rest : List Char} {t : Token} (h : instruction cs = some (t, rest)) :
    t = .ignored ∧ ∃ body, cs = body ++ ['?', '>'] ++ rest := by
  obtain ⟨⟨n, r⟩, hn, h⟩ := Option.bind_eq_some_iff.mp h
  obtain ⟨⟨body, r'⟩, hbody, h⟩ := Option.bind_eq_some_iff.mp h
  simp only at h
  split_ifs at h
  cases h
  obtain ⟨used, hcs, -⟩ := name_reaches hn
  exact ⟨rfl, used ++ body, by rw [hcs, before_eq hbody]; simp⟩

theorem closeTag_spec {cs rest : List Char} {t : Token} (h : closeTag cs = some (t, rest)) :
    t.chars = [] ∧ Reaches cs rest := by
  obtain ⟨⟨n, r⟩, hn, h⟩ := Option.bind_eq_some_iff.mp h
  have hreach := (name_reaches hn).trans (skipSpace_reaches r)
  simp only at h
  split at h
  · rename_i r' hr'
    cases h
    rw [hr'] at hreach
    exact ⟨rfl, hreach.trans (.cons (by decide) (.refl rest))⟩
  · cases h

theorem openTag_spec {cs rest : List Char} {t : Token} (h : openTag cs = some (t, rest)) :
    t.chars = [] ∧ Reaches cs rest := by
  obtain ⟨⟨n, r⟩, hn, h⟩ := Option.bind_eq_some_iff.mp h
  obtain ⟨⟨⟨as, empty⟩, r'⟩, has, h⟩ := Option.bind_eq_some_iff.mp h
  cases h
  refine ⟨?_, (name_reaches hn).trans (attributes_reaches has)⟩
  cases empty <;> rfl

/-- What starts with `<` is closed, and longer than what it stands for. -/
theorem markup_used {cs rest : List Char} {t : Token} (h : markup cs = some (t, rest)) :
    ∃ used, cs = used ++ rest ∧ Closed ('<' :: used) ∧ t.chars.length < used.length + 1 := by
  rw [markup] at h
  split at h
  · rename_i r hr
    obtain ⟨rfl, body, rfl⟩ := comment_spec h
    refine ⟨['!', '-', '-'] ++ body ++ ['-', '-', '>'], ?_, .inr ⟨'<' :: ['!', '-', '-'] ++ body ++ ['-'],
      '-', by simp, by simp⟩, by simp [Token.chars]⟩
    rw [dropPrefix_eq hr]
    simp
  split at h
  · rename_i r hr
    obtain ⟨body, rfl, rfl⟩ := cdata_spec h
    refine ⟨['!', '[', 'C', 'D', 'A', 'T', 'A', '['] ++ body ++ [']', ']', '>'], ?_,
      .inr ⟨'<' :: ['!', '[', 'C', 'D', 'A', 'T', 'A', '['] ++ body ++ [']'], ']', by simp, by simp⟩, ?_⟩
    · rw [dropPrefix_eq hr]
      simp
    · simp only [Token.chars, List.length_append]
      omega
  split at h
  · rename_i r hr
    obtain ⟨rfl, body, rfl⟩ := instruction_spec h
    refine ⟨['?'] ++ body ++ ['?', '>'], ?_, .inr ⟨'<' :: ['?'] ++ body, '?', by simp, by simp⟩,
      by simp [Token.chars]⟩
    rw [dropPrefix_eq hr]
    simp
  split at h
  · rename_i r hr
    obtain ⟨ht, used, rfl, hused⟩ := closeTag_spec h
    refine ⟨'/' :: used, by rw [dropPrefix_eq hr]; rfl, .inl (by simp [hused]), by simp [ht]⟩
  · obtain ⟨ht, used, rfl, hused⟩ := openTag_spec h
    exact ⟨used, rfl, .inl hused, by simp [ht]⟩

/-- **What a token is made of**: a character for itself, or more characters
than it stands for. -/
theorem token_used {cs rest : List Char} {t : Token} (h : token cs = some (t, rest)) :
    ∃ used, cs = used ++ rest ∧ Closed used ∧
      ((∃ c, t = .text c ∧ used = [c] ∧ c ≠ '<' ∧ c ≠ '&' ∧ ¬ [']', ']', '>'] <+: cs) ∨
        t.chars.length < used.length) := by
  cases cs with
  | nil => cases h
  | cons c cs =>
    rw [token] at h
    split_ifs at h with hlt hamp hchar
    · subst hlt
      obtain ⟨used, rfl, hclosed, hlen⟩ := markup_used h
      exact ⟨'<' :: used, rfl, hclosed, .inr hlen⟩
    · subst hamp
      obtain ⟨⟨d, r⟩, hd, hmap⟩ := Option.map_eq_some_iff.mp h
      cases hmap
      obtain ⟨body, rfl, hne, hbody⟩ := reference_spec hd
      refine ⟨'&' :: (body ++ [';']), by simp, .inl (by simp [hbody]), .inr ?_⟩
      simp [Token.chars]
    · cases h
      refine ⟨[c], rfl, .inl List.not_mem_nil, .inl ⟨c, rfl, rfl, hlt, hamp, fun hpre => ?_⟩⟩
      obtain ⟨r, hr⟩ := hpre
      have hsome : (c :: rest).dropPrefix? [']', ']', '>'] = some r :=
        List.dropPrefix?_eq_some_iff.mpr ⟨_, hr.symm, beq_self_eq_true _⟩
      rw [hsome] at hchar
      cases hchar.2

/-! ### The tokens of a text -/

/-- Reading tokens from a text leaves a rest. -/
inductive Scan : List Char → List Token → List Char → Prop
  | nil (cs : List Char) : Scan cs [] cs
  | cons {cs cs' rest : List Char} {t : Token} {ts : List Token} (h : token cs = some (t, cs'))
      (hts : Scan cs' ts rest) : Scan cs (t :: ts) rest

/-- The tokens of a whole text. -/
def Tokens (cs : List Char) (ts : List Token) : Prop := Scan cs ts []

theorem Scan.single {cs rest : List Char} {t : Token} (h : token cs = some (t, rest)) : Scan cs [t] rest :=
  .cons h (.nil rest)

theorem Scan.append {cs cs' rest : List Char} {ts ts' : List Token} (h : Scan cs ts cs')
    (h' : Scan cs' ts' rest) : Scan cs (ts ++ ts') rest := by
  induction h with
  | nil => exact h'
  | cons ht _ ih => exact .cons ht (ih h')

/-- What was read first is what the tokens of the text start with. -/
theorem Scan.tokens {cs rest : List Char} {ts us : List Token} (h : Scan cs ts rest) (hus : Tokens cs us) :
    ∃ us', us = ts ++ us' ∧ Tokens rest us' := by
  induction h generalizing us with
  | nil => exact ⟨us, rfl, hus⟩
  | cons ht _ ih =>
    cases hus with
    | nil => cases ht
    | cons hu hus =>
      cases ht.symm.trans hu
      obtain ⟨us', rfl, hrest⟩ := ih hus
      exact ⟨us', rfl, hrest⟩

theorem token_length {cs rest : List Char} {t : Token} (h : token cs = some (t, rest)) :
    rest.length < cs.length := by
  obtain ⟨used, rfl, -, ⟨c, -, rfl, -⟩ | hlen⟩ := token_used h
  · simp
  · rw [List.length_append]
    omega

theorem tokens_iff : ∀ {n : ℕ} {cs : List Char} {ts : List Token}, cs.length ≤ n →
    (tokens n cs = some ts ↔ Tokens cs ts)
  | _, [], ts, _ => by
    rw [tokens]
    constructor
    · intro h
      cases h
      exact .nil _
    · intro h
      cases h with
      | nil => rfl
      | cons h _ => cases h
  | 0, c :: cs, ts, hn => absurd hn (by simp)
  | n + 1, c :: cs, ts, hn => by
    rw [tokens]
    constructor
    · intro h
      obtain ⟨⟨t, rest⟩, ht, h⟩ := Option.bind_eq_some_iff.mp h
      obtain ⟨ts', hts, h⟩ := Option.bind_eq_some_iff.mp h
      cases h
      have hlen := token_length ht
      exact .cons ht ((tokens_iff (by simp at hn hlen; omega)).mp hts)
    · intro h
      cases h with
      | @cons _ rest _ t ts ht hts =>
        have hlen := token_length ht
        have htail : tokens n rest = some ts := (tokens_iff (by simp at hn hlen; omega)).mpr hts
        simp [ht, htail]

/-- A text that is read as itself: no markup, no reference, and no end of a
CDATA section. -/
def Plain (cs : List Char) : Prop := '<' ∉ cs ∧ '&' ∉ cs ∧ ¬ [']', ']', '>'] <:+: cs

instance (cs : List Char) : Decidable (Plain cs) := inferInstanceAs (Decidable (_ ∧ _ ∧ _))

/-- What has no `>` ends no CDATA section. -/
theorem Plain.append {as bs : List Char} (h : Plain as) (hbs : ∀ c ∈ bs, c ≠ '<' ∧ c ≠ '&' ∧ c ≠ '>') :
    Plain (as ++ bs) := by
  obtain ⟨hlt, hamp, hend⟩ := h
  refine ⟨?_, ?_, ?_⟩
  · rw [List.mem_append, not_or]
    exact ⟨hlt, fun hmem => (hbs _ hmem).1 rfl⟩
  · rw [List.mem_append, not_or]
    exact ⟨hamp, fun hmem => (hbs _ hmem).2.1 rfl⟩
  · rintro ⟨l, r, hlr⟩
    rcases List.append_eq_append_iff.mp hlr with ⟨more, hmore, -⟩ | ⟨more, hmore, hbs'⟩
    · exact hend ⟨l, more, hmore.symm⟩
    · rcases List.eq_nil_or_concat more with rfl | ⟨ds, d, rfl⟩
      · exact hend ⟨l, [], by rw [hmore]; simp⟩
      · -- the end would be in the second text
        have hlast := congrArg List.getLast? hmore
        obtain rfl : d = '>' := by simpa [List.concat_eq_append] using hlast.symm
        exact (hbs '>' (by rw [hbs']; simp)).2.2 rfl

/-- The two characters do not end a comment, a CDATA section or a processing
instruction. -/
def NoEnd (c d : Char) : Prop := d = '>' → c ∉ ['-', ']', '?']

instance (c d : Char) : Decidable (NoEnd c d) := inferInstanceAs (Decidable (_ → _))

/-- A text starts with `<`, and nothing that was open before ends in it. -/
def Sealed (cs : List Char) : Prop := cs.head? = some '<' ∧ cs.IsChain NoEnd

theorem isChain_of_notMem {cs : List Char} (h : '>' ∉ cs) : cs.IsChain NoEnd :=
  (List.pairwise_of_forall_mem_list fun _ _ d hd (hgt : d = '>') => absurd (hgt ▸ hd) h).isChain

theorem Sealed.eq_cons {cs : List Char} (h : Sealed cs) : ∃ ds, cs = '<' :: ds := by
  cases cs with
  | nil => cases h.1
  | cons c ds =>
    cases h.1
    exact ⟨ds, rfl⟩

/-- What is closed and starts before a sealed text does not reach into it. -/
theorem Closed.split {used rest code suffix : List Char} (h : Closed used) (hs : Sealed suffix)
    (hcode : code ≠ []) (heq : code ++ suffix = used ++ rest) :
    ∃ code', code = used ++ code' ∧ rest = code' ++ suffix := by
  rcases List.append_eq_append_iff.mp heq with ⟨more, rfl, hsuffix⟩ | ⟨code', rfl, rfl⟩
  · cases more with
    | nil => exact ⟨[], by simp, by simpa using hsuffix.symm⟩
    | cons o more =>
      obtain ⟨ds, hds⟩ := hs.eq_cons
      obtain ⟨rfl, hds'⟩ : '<' = o ∧ ds = more ++ rest := by simpa [hds] using hsuffix
      rcases h with hlt | ⟨cs, c, hc, hend⟩
      · obtain ⟨d, code, rfl⟩ := List.exists_cons_of_ne_nil hcode
        simp at hlt
      · -- the end would stand in the suffix
        cases more with
        | nil =>
          have hlast := congrArg List.getLast? hend
          simp at hlast
        | cons o more =>
          have hsuf : [c, '>'] <:+ '<' :: o :: more :=
            List.suffix_of_suffix_length_le (by rw [hend]; exact List.suffix_append _ _)
              (List.suffix_append code _) (by simp)
          have hmid : '<' :: o :: more <:+: suffix := by
            rw [hsuffix]
            exact (List.prefix_append _ _).isInfix
          obtain ⟨l, r, hlr⟩ := hsuf.isInfix.trans hmid
          have hchain := hs.2
          rw [← hlr, List.isChain_append, List.isChain_append] at hchain
          have hpair : NoEnd c '>' := List.isChain_pair.mp hchain.1.2.1
          exact absurd hc (hpair rfl)
  · exact ⟨code', rfl, rfl⟩

/-- How many characters tokens stand for. -/
def width (ts : List Token) : ℕ := (ts.flatMap Token.chars).length

theorem width_cons (t : Token) (ts : List Token) : width (t :: ts) = t.chars.length + width ts :=
  List.length_append

/-- The end of a CDATA section does not straddle the start of markup. -/
theorem dropPrefix_cdataEnd {c : Char} {cs rest : List Char} (h : ¬ [']', ']', '>'] <+: c :: cs)
    (hrest : rest.head? = some '<') : (c :: (cs ++ rest)).dropPrefix? [']', ']', '>'] = none := by
  by_contra hne
  obtain ⟨r, hr⟩ := Option.ne_none_iff_exists'.mp hne
  have heq : (c :: cs) ++ rest = [']', ']', '>'] ++ r := dropPrefix_eq hr
  rcases List.append_eq_append_iff.mp heq with ⟨more, hover, hr'⟩ | ⟨more, hover, -⟩
  · cases more with
    | nil => exact h ⟨[], hover.trans (List.append_nil _)⟩
    | cons o more =>
      obtain rfl : '<' = o := by
        rw [hr'] at hrest
        simpa using hrest.symm
      have hmem : '<' ∈ [']', ']', '>'] := hover ▸ by simp
      exact absurd hmem (by decide)
  · exact h ⟨more, hover.symm⟩

/-- A plain text is read as itself. -/
theorem scan_plain {rest : List Char} (hrest : rest.head? = some '<') : ∀ {cs : List Char},
    (∀ c ∈ cs, isChar c = true) → Plain cs → Scan (cs ++ rest) (cs.map .text) rest
  | [], _, _ => .nil rest
  | c :: cs, hchar, hplain => by
    rw [List.forall_mem_cons] at hchar
    obtain ⟨hlt, hamp, hend⟩ := hplain
    rw [List.mem_cons, not_or] at hlt hamp
    rw [List.infix_cons_iff, not_or] at hend
    refine .cons ?_ (scan_plain hrest hchar.2 ⟨hlt.2, hamp.2, hend.2⟩)
    rw [List.cons_append, token, if_neg (Ne.symm hlt.1), if_neg (Ne.symm hamp.1),
      if_pos ⟨hchar.1, dropPrefix_cdataEnd hend.1 hrest⟩]

/-! ### Escapes -/

/-- A character of a text, escaped. -/
def escapeChar (c : Char) : List Char :=
  if c = '&' then ['&', 'a', 'm', 'p', ';'] else if c = '>' then ['&', 'g', 't', ';']
  else if c = '<' then ['&', 'l', 't', ';'] else [c]

def escape (cs : List Char) : List Char := cs.flatMap escapeChar

/-- The token of an escaped character. -/
def escapeToken (c : Char) : Token := if c = '&' ∨ c = '>' ∨ c = '<' then .data [c] else .text c

theorem escape_notMem (cs : List Char) : '>' ∉ escape cs := by
  rw [escape, List.mem_flatMap]
  rintro ⟨c, -, hc⟩
  rw [escapeChar] at hc
  split_ifs at hc with h₁ h₂ h₃
  · exact absurd hc (by decide)
  · exact absurd hc (by decide)
  · exact absurd hc (by decide)
  · exact h₂ (List.mem_singleton.mp hc).symm

/-- Nothing that was open before ends in an escaped text, or around it. -/
theorem isChain_escape (cs : List Char) {pre post : List Char} (hpre : pre.IsChain NoEnd)
    (hpost : ('<' :: post).IsChain NoEnd) : (pre ++ (escape cs ++ '<' :: post)).IsChain NoEnd := by
  have hescape := escape_notMem cs
  rw [List.isChain_append, List.isChain_append]
  refine ⟨hpre, ⟨isChain_of_notMem hescape, hpost, fun c _ d hd hgt => ?_⟩, fun c _ d hd hgt => ?_⟩
  · cases hd
    exact absurd hgt (by decide)
  · subst hgt
    cases hraw : escape cs with
    | nil =>
      rw [hraw] at hd
      cases hd
    | cons e es =>
      rw [hraw] at hd hescape
      cases hd
      exact absurd List.mem_cons_self hescape

theorem before_char {c : Char} {rest : List Char} : ∀ {b : List Char}, c ∉ b →
    before [c] (b ++ c :: rest) = some (b, rest)
  | [], _ => by simp [before, List.dropPrefix?]
  | d :: b, h => by
    rw [List.mem_cons, not_or] at h
    have hne : (d == c) = false := beq_eq_false_iff_ne.mpr (Ne.symm h.1)
    simp [before, List.dropPrefix?, hne, before_char h.2]

theorem token_reference {body rest : List Char} {c : Char} (hbody : ';' ∉ body)
    (h : entity body = some c) : token ('&' :: (body ++ ';' :: rest)) = some (.data [c], rest) := by
  rw [token, if_neg (by decide), if_pos rfl, reference, before_char hbody]
  simp [h]

/-- A character that is written as a reference is read from it. -/
theorem token_escapeChar {c : Char} (h : c = '&' ∨ c = '>' ∨ c = '<') (rest : List Char) :
    token (escapeChar c ++ rest) = some (escapeToken c, rest) := by
  rcases h with rfl | rfl | rfl
  · show token ('&' :: (['a', 'm', 'p'] ++ ';' :: rest)) = _
    exact token_reference (by decide) rfl
  · show token ('&' :: (['g', 't'] ++ ';' :: rest)) = _
    exact token_reference (by decide) rfl
  · show token ('&' :: (['l', 't'] ++ ';' :: rest)) = _
    exact token_reference (by decide) rfl

/-- An escaped text is read as what it stands for. -/
theorem scan_escape {rest : List Char} (hrest : rest.head? = some '<') : ∀ {cs : List Char},
    (∀ c ∈ cs, isChar c = true) → Scan (escape cs ++ rest) (cs.map escapeToken) rest
  | [], _ => .nil rest
  | c :: cs, hchar => by
    rw [List.forall_mem_cons] at hchar
    have hcons : escape (c :: cs) ++ rest = escapeChar c ++ (escape cs ++ rest) := by simp [escape]
    rw [hcons, List.map_cons]
    refine .cons ?_ (scan_escape hrest hchar.2)
    by_cases h : c = '&' ∨ c = '>' ∨ c = '<'
    · exact token_escapeChar h _
    · rw [not_or, not_or] at h
      obtain ⟨h₁, h₂, h₃⟩ := h
      have hend : ¬ [']', ']', '>'] <+: c :: escape cs := fun hpre => by
        have hmem : '>' ∈ c :: escape cs := hpre.subset (by simp)
        rcases List.mem_cons.mp hmem with hc | hmem
        · exact h₂ hc.symm
        · exact escape_notMem cs hmem
      rw [escapeChar, if_neg h₁, if_neg h₂, if_neg h₃, escapeToken, if_neg (by simp [h₁, h₂, h₃])]
      show token (c :: (escape cs ++ rest)) = _
      rw [token, if_neg h₃, if_neg h₁, if_pos ⟨hchar.1, dropPrefix_cdataEnd hend hrest⟩]

/-! ### Tags without attributes -/

def IsName : List Char → Prop
  | [] => False
  | c :: cs => isNameStart c = true ∧ ∀ d ∈ cs, isNameChar d = true

instance : ∀ cs, Decidable (IsName cs)
  | [] => inferInstanceAs (Decidable False)
  | _ :: cs => @instDecidableAnd _ _ _ (List.decidableBAll _ cs)

theorem name_append {n rest : List Char} (hn : IsName n) :
    name (n ++ '>' :: rest) = some (n, '>' :: rest) := by
  cases n with
  | nil => exact hn.elim
  | cons c n =>
    obtain ⟨hc, hn⟩ := hn
    have hstop : isNameChar '>' = false := by decide
    rw [List.cons_append, name, if_pos hc, List.takeWhile_append_of_pos hn, List.dropWhile_append_of_pos hn,
      List.takeWhile_cons_of_neg (by simp [hstop]), List.dropWhile_cons_of_neg (by simp [hstop]),
      List.append_nil]

theorem scan_openTag {n : List Char} (hn : IsName n) (rest : List Char) :
    Scan ('<' :: (n ++ '>' :: rest)) [.openTag n []] rest := by
  have hname : name (n ++ '>' :: rest) = some (n, '>' :: rest) := name_append hn
  refine .single ?_
  rw [token, if_pos rfl, markup]
  cases n with
  | nil => exact hn.elim
  | cons c n =>
    have hne : ∀ d, isNameStart d = false → (c == d) = false := fun d hd => by
      rw [beq_eq_false_iff_ne]
      rintro rfl
      rw [hn.1] at hd
      cases hd
    simp only [List.cons_append] at hname ⊢
    simp only [List.dropPrefix?, hne '!' (by decide), hne '?' (by decide), hne '/' (by decide),
      Bool.false_eq_true, if_false, openTag, hname]
    rfl

theorem scan_closeTag {n : List Char} (hn : IsName n) (rest : List Char) :
    Scan ('<' :: '/' :: (n ++ '>' :: rest)) [.closeTag n] rest := by
  refine .single ?_
  have hclose : closeTag (n ++ '>' :: rest) = some (.closeTag n, rest) := by
    rw [closeTag, name_append hn]
    rfl
  rw [token, if_pos rfl, markup]
  simpa [List.dropPrefix?] using hclose

/-! ### Building elements -/

section

variable {E : Type} {mk : String → Option String → List E → E} {ns : Namespaces}

/-- A token that stands for characters. -/
def Token.IsChars : Token → Prop
  | .text _ => True
  | .data _ => True
  | _ => False

theorem Frame.add_nil (f : Frame E) : f.add [] = f := by
  rw [Frame.add]
  split_ifs
  · simp
  · rfl

theorem Frame.add_add (f : Frame E) (cs ds : List Char) : (f.add cs).add ds = f.add (cs ++ ds) := by
  by_cases h : f.children = []
  · simp [Frame.add, h]
  · simp [Frame.add, h]

/-- Characters are added to the innermost element. -/
theorem foldlM_chars {f : Frame E} {fs : List (Frame E)} {r : Option E} : ∀ {ts : List Token},
    (∀ t ∈ ts, t.IsChars) →
      ts.foldlM (step mk ns) ⟨f :: fs, r⟩ = some ⟨f.add (ts.flatMap Token.chars) :: fs, r⟩
  | [], _ => by
    rw [List.flatMap_nil, Frame.add_nil]
    rfl
  | t :: ts, h => by
    rw [List.forall_mem_cons] at h
    have hstep : step mk ns ⟨f :: fs, r⟩ t = some ⟨f.add t.chars :: fs, r⟩ := by
      cases t with
      | text c => rfl
      | data cs => rfl
      | _ => exact h.1.elim
    rw [List.foldlM_cons, hstep, List.flatMap_cons, ← Frame.add_add]
    exact foldlM_chars h.2

/-- No attribute is in scope. -/
def Unscoped (fs : List (Frame E)) : Prop := ∀ f ∈ fs, f.attributes = []

theorem push_unscoped {s : State E} (hs : Unscoped s.stack) (hopen : s.stack ≠ [] ∨ s.root = none)
    {n : List Char} (hn : ':' ∉ n) : s.push ns n [] = some ⟨n, String.ofList n, [], [], []⟩ := by
  have htag : ns.tagOf ([] :: s.stack.map Frame.attributes) n = some (String.ofList n) := by
    refine ns.unscoped (fun as has => ?_) hn
    rcases List.mem_cons.mp has with rfl | has
    · rfl
    · obtain ⟨f, hf, rfl⟩ := List.mem_map.mp has
      exact hs f hf
  rw [State.push, if_neg, htag]
  · rfl
  · rintro ⟨hnil, hroot⟩
    rcases hopen with hne | hnone
    · exact hne hnil
    · rw [hnone] at hroot
      cases hroot

/-- A text that is read as the characters, wherever markup follows it. -/
def Stands (raw cs : List Char) : Prop := ∀ rest, rest.head? = some '<' →
  ∃ ts, (∀ t ∈ ts, t.IsChars) ∧ ts.flatMap Token.chars = cs ∧ Scan (raw ++ rest) ts rest

theorem Plain.stands {cs : List Char} (h : Plain cs) (hchar : ∀ c ∈ cs, isChar c = true) : Stands cs cs := by
  intro rest hrest
  refine ⟨cs.map .text, fun t ht => ?_, ?_, scan_plain hrest hchar h⟩
  · obtain ⟨c, -, rfl⟩ := List.mem_map.mp ht
    trivial
  · rw [List.flatMap_map]
    exact List.flatMap_singleton' cs

theorem stands_escape {cs : List Char} (hchar : ∀ c ∈ cs, isChar c = true) : Stands (escape cs) cs := by
  intro rest hrest
  have htoken : ∀ c, (escapeToken c).IsChars ∧ (escapeToken c).chars = [c] := fun c => by
    rw [escapeToken]
    split_ifs
    · exact ⟨trivial, rfl⟩
    · exact ⟨trivial, rfl⟩
  refine ⟨cs.map escapeToken, fun t ht => ?_, ?_, scan_escape hrest hchar⟩
  · obtain ⟨c, -, rfl⟩ := List.mem_map.mp ht
    exact (htoken c).1
  · rw [List.flatMap_map]
    simp only [fun c => (htoken c).2]
    exact List.flatMap_singleton' cs

/-- An element as it is written: a name, and a text with what it is read as. -/
structure Leaf where
  name : List Char
  raw : List Char
  chars : List Char
  isName : IsName name
  unprefixed : ':' ∉ name
  stands : Stands raw chars

/-- A leaf between its tags. -/
def Leaf.text (l : Leaf) : List Char :=
  '<' :: (l.name ++ '>' :: (l.raw ++ '<' :: '/' :: (l.name ++ ['>'])))

def Leaf.element (mk : String → Option String → List E → E) (l : Leaf) : E :=
  mk (String.ofList l.name) (content l.chars) []

/-- Reading a leaf adds a child to the innermost element. -/
theorem scan_leaf (l : Leaf) {f : Frame E} {fs : List (Frame E)} (hs : Unscoped (f :: fs)) (rest : List Char) :
    ∃ ts, Scan (l.text ++ rest) ts rest ∧ ts.foldlM (step mk ns) ⟨f :: fs, none⟩ =
      some ⟨{ f with children := l.element mk :: f.children } :: fs, none⟩ := by
  obtain ⟨ts, hchars, hflat, hscan⟩ := l.stands ('<' :: '/' :: (l.name ++ '>' :: rest)) rfl
  refine ⟨[.openTag l.name []] ++ (ts ++ [.closeTag l.name]), ?_, ?_⟩
  · have htext : l.text ++ rest =
        '<' :: (l.name ++ '>' :: (l.raw ++ '<' :: '/' :: (l.name ++ '>' :: rest))) := by simp [Leaf.text]
    rw [htext]
    exact (scan_openTag l.isName _).append (hscan.append (scan_closeTag l.isName rest))
  · have hpush : State.push ns ⟨f :: fs, none⟩ l.name [] =
        some ⟨l.name, String.ofList l.name, [], [], []⟩ := push_unscoped hs (.inr rfl) l.unprefixed
    have hopen : step mk ns ⟨f :: fs, none⟩ (.openTag l.name []) =
        some ⟨⟨l.name, String.ofList l.name, [], [], []⟩ :: f :: fs, none⟩ := by
      simp [step, hpush]
    rw [List.singleton_append, List.foldlM_cons, hopen]
    show (ts ++ [Token.closeTag l.name]).foldlM (step mk ns) _ = _
    rw [List.foldlM_append, foldlM_chars hchars, hflat]
    simp [step, Frame.add, State.close, Frame.element, Leaf.element]

/-- Reading leaves adds children to the innermost element. -/
theorem scan_leaves {f : Frame E} {fs : List (Frame E)} (hs : Unscoped (f :: fs)) (rest : List Char) :
    ∀ ls : List Leaf, ∃ ts, Scan (ls.flatMap Leaf.text ++ rest) ts rest ∧
      ts.foldlM (step mk ns) ⟨f :: fs, none⟩ =
        some ⟨{ f with children := (ls.map (Leaf.element mk)).reverse ++ f.children } :: fs, none⟩ := by
  intro ls
  induction ls generalizing f with
  | nil => exact ⟨[], .nil rest, rfl⟩
  | cons l ls ih =>
    obtain ⟨ts, hscan, hfold⟩ : ∃ ts, Scan (l.text ++ (ls.flatMap Leaf.text ++ rest)) ts
        (ls.flatMap Leaf.text ++ rest) ∧ ts.foldlM (step mk ns) ⟨f :: fs, none⟩ =
          some ⟨{ f with children := l.element mk :: f.children } :: fs, none⟩ := scan_leaf l hs _
    have hs' : Unscoped ({ f with children := l.element mk :: f.children } :: fs) := by
      rw [Unscoped, List.forall_mem_cons] at hs ⊢
      exact hs
    obtain ⟨us, hscan', hfold'⟩ := ih hs'
    refine ⟨ts ++ us, ?_, ?_⟩
    · rw [List.flatMap_cons, List.append_assoc]
      exact hscan.append hscan'
    · rw [List.foldlM_append, hfold]
      refine hfold'.trans ?_
      simp

/-- The leaves of an element between its tags. -/
def documentText (n : List Char) (ls : List Leaf) : List Char :=
  '<' :: (n ++ '>' :: (ls.flatMap Leaf.text ++ '<' :: '/' :: (n ++ ['>'])))

/-- **An element with leaves is read back.** -/
theorem build_leaves {n : List Char} (hn : IsName n) (hcolon : ':' ∉ n) (ls : List Leaf) :
    ∃ ts, Tokens (documentText n ls) ts ∧
      build mk ns ts = some (mk (String.ofList n) none (ls.map (Leaf.element mk))) := by
  have hs : Unscoped [(⟨n, String.ofList n, [], [], []⟩ : Frame E)] := by
    intro f hf
    rw [List.mem_singleton.mp hf]
  obtain ⟨ts, hscan, hfold⟩ : ∃ ts, Scan (ls.flatMap Leaf.text ++ '<' :: '/' :: (n ++ ['>'])) ts
      ('<' :: '/' :: (n ++ ['>'])) ∧ ts.foldlM (step mk ns) ⟨[⟨n, String.ofList n, [], [], []⟩], none⟩ =
        some ⟨[⟨n, String.ofList n, [], [], (ls.map (Leaf.element mk)).reverse ++ []⟩], none⟩ :=
    scan_leaves hs _ ls
  refine ⟨[Token.openTag n []] ++ (ts ++ [Token.closeTag n]),
    (scan_openTag hn _).append (hscan.append (scan_closeTag hn [])), ?_⟩
  have hpush : State.push ns (⟨[], none⟩ : State E) n [] = some ⟨n, String.ofList n, [], [], []⟩ :=
    push_unscoped (by simp [Unscoped]) (.inr rfl) hcolon
  have hopen : step mk ns ⟨[], none⟩ (.openTag n []) = some ⟨[⟨n, String.ofList n, [], [], []⟩], none⟩ := by
    simp [step, hpush]
  have hrun : ([Token.openTag n []] ++ (ts ++ [Token.closeTag n])).foldlM (step mk ns) ⟨[], none⟩ =
      some ⟨[], some (mk (String.ofList n) none (ls.map (Leaf.element mk)))⟩ := by
    rw [List.singleton_append, List.foldlM_cons, hopen]
    show (ts ++ [Token.closeTag n]).foldlM (step mk ns) _ = _
    rw [List.foldlM_append, hfold]
    simp [step, State.close, Frame.element, content]
  rw [build, hrun]
  rfl

/-! ### Reading -/

theorem lineEnds_cons {c : Char} (h : c ≠ '\r') (cs : List Char) : lineEnds (c :: cs) = c :: lineEnds cs := by
  rw [lineEnds]
  · exact fun ds hc => absurd hc h
  · exact fun hc => absurd hc h

theorem lineEnds_cr {cs : List Char} (h : cs.head? ≠ some '\n') : lineEnds ('\r' :: cs) = '\n' :: lineEnds cs := by
  rw [lineEnds]
  rintro ds rfl
  exact h rfl

/-- Texts are read apart where no line feed comes. -/
theorem lineEnds_append {bs : List Char} (h : bs.head? ≠ some '\n') (as : List Char) :
    lineEnds (as ++ bs) = lineEnds as ++ lineEnds bs := by
  fun_induction lineEnds as with
  | case1 cs ih => simpa [lineEnds] using ih
  | case2 cs hcs ih =>
    have hhead : (cs ++ bs).head? ≠ some '\n' := by
      cases cs with
      | nil => exact h
      | cons c cs =>
        rintro hc
        cases hc
        exact hcs cs rfl
    rw [List.cons_append, lineEnds_cr hhead, ih]
    rfl
  | case3 c cs h₁ h₂ ih =>
    have hc : c ≠ '\r' := h₂
    rw [List.cons_append, lineEnds_cons hc, ih]
    rfl
  | case4 => rfl

/-- What has no carriage return is read as it is. -/
theorem lineEnds_append_of_notMem {as : List Char} (h : '\r' ∉ as) (bs : List Char) :
    lineEnds (as ++ bs) = as ++ lineEnds bs := by
  induction as with
  | nil => rfl
  | cons c as ih =>
    rw [List.mem_cons, not_or] at h
    rw [List.cons_append, lineEnds_cons (Ne.symm h.1), ih h.2]
    rfl

theorem lineEnds_eq {cs : List Char} (h : '\r' ∉ cs) : lineEnds cs = cs := by
  have happend := lineEnds_append_of_notMem h []
  rwa [List.append_nil, lineEnds, List.append_nil] at happend

/-- No carriage return is left. -/
theorem notMem_lineEnds (cs : List Char) : '\r' ∉ lineEnds cs := by
  fun_induction lineEnds cs with
  | case1 cs ih => simp [ih]
  | case2 cs h ih => simp [ih]
  | case3 c cs h₁ h₂ ih =>
    have hc : c ≠ '\r' := h₂
    simp [ih, hc.symm]
  | case4 => exact List.not_mem_nil

/-- What holds of line ends holds of the text as it is read if it holds of the text. -/
theorem forall_mem_lineEnds {p : Char → Prop} (hr : p '\r') (hn : p '\n') (cs : List Char) :
    (∀ c ∈ lineEnds cs, p c) ↔ ∀ c ∈ cs, p c := by
  fun_induction lineEnds cs with
  | case1 cs ih => simp [hr, hn, ih]
  | case2 cs h ih => simp [hr, hn, ih]
  | case3 c cs h₁ h₂ ih => simp [ih]
  | case4 => rfl

/-- Line ends are not escaped. -/
theorem lineEnds_escape (cs : List Char) : lineEnds (escape cs) = escape (lineEnds cs) := by
  have hcons : ∀ c cs, escape (c :: cs) = escapeChar c ++ escape cs := fun c cs => List.flatMap_cons
  fun_induction lineEnds cs with
  | case1 cs ih =>
    rw [hcons, hcons, hcons]
    show lineEnds ('\r' :: '\n' :: escape cs) = '\n' :: escape (lineEnds cs)
    rw [lineEnds, ih]
  | case2 cs h ih =>
    have hhead : (escape cs).head? ≠ some '\n' := by
      cases cs with
      | nil => simp [escape]
      | cons c cs =>
        have hc : c ≠ '\n' := fun hc => h cs (by rw [hc])
        rw [hcons, escapeChar]
        split_ifs <;> simp [hc]
    rw [hcons, hcons]
    show lineEnds ('\r' :: escape cs) = '\n' :: escape (lineEnds cs)
    rw [lineEnds_cr hhead, ih]
  | case3 c cs h₁ h₂ ih =>
    have hc : c ≠ '\r' := h₂
    have hnot : '\r' ∉ escapeChar c := by
      rw [escapeChar]
      split_ifs
      · decide
      · decide
      · decide
      · simpa using hc.symm
    rw [hcons, hcons, lineEnds_append_of_notMem hnot, ih]
  | case4 => rfl

/-- Texts that are the same up to their line ends are read the same. -/
theorem read_congr {s s' : String} (h : lineEnds s.toList = lineEnds s'.toList) : read mk ns s = read mk ns s' := by
  rw [read, read, h]

theorem read_eq_some {s : String} (hs : '\r' ∉ s.toList) {e : E} :
    read mk ns s = some e ↔ ∃ ts, Tokens s.toList ts ∧ build mk ns ts = some e := by
  rw [read, lineEnds_eq hs]
  constructor
  · intro h
    obtain ⟨ts, hts, h⟩ := Option.bind_eq_some_iff.mp h
    exact ⟨ts, (tokens_iff (Nat.le_refl _)).mp hts, h⟩
  · rintro ⟨ts, hts, h⟩
    exact Option.bind_eq_some_iff.mpr ⟨ts, (tokens_iff (Nat.le_refl _)).mpr hts, h⟩

/-! ### How long texts are -/

section

variable {T : String} {P Q : E → Prop} {N : ℕ}

/-- The open elements with the tag `T` have texts of at most `n` characters,
their children satisfy `P`, and the document's element satisfies `Q`. -/
structure State.Bounded (T : String) (P Q : E → Prop) (n : ℕ) (s : State E) : Prop where
  texts : ∀ f ∈ s.stack, f.tag = T → f.text.length ≤ n
  children : ∀ f ∈ s.stack, ∀ c ∈ f.children, P c
  root : ∀ e, s.root = some e → Q e

theorem State.Bounded.mono {n n' : ℕ} {s : State E} (h : s.Bounded T P Q n) (hn : n ≤ n') :
    s.Bounded T P Q n' :=
  ⟨fun f hf htag => Nat.le_trans (h.texts f hf htag) hn, h.children, h.root⟩

theorem State.Bounded.push {n : ℕ} {s : State E} (h : s.Bounded T P Q n) {f : Frame E}
    {name : List Char} {as : List Attribute} (hf : s.push ns name as = some f) :
    (⟨f :: s.stack, s.root⟩ : State E).Bounded T P Q n := by
  rw [State.push] at hf
  split_ifs at hf
  obtain ⟨tag, -, hf⟩ := Option.bind_eq_some_iff.mp hf
  cases hf
  refine ⟨?_, ?_, h.root⟩
  · rw [List.forall_mem_cons]
    exact ⟨fun _ => Nat.zero_le n, h.texts⟩
  · rw [List.forall_mem_cons]
    exact ⟨by simp, h.children⟩

/-- A text with another tag may grow. -/
theorem State.Bounded.add {n : ℕ} {f : Frame E} {fs : List (Frame E)} {r : Option E}
    (h : (⟨f :: fs, r⟩ : State E).Bounded T P Q n) (hf : f.tag ≠ T) (cs : List Char) :
    (⟨f.add cs :: fs, r⟩ : State E).Bounded T P Q n := by
  obtain ⟨htexts, hchildren, hroot⟩ := h
  rw [List.forall_mem_cons] at htexts hchildren
  have hadd : (f.add cs).tag = f.tag ∧ (f.add cs).children = f.children := by
    rw [Frame.add]
    split_ifs
    · exact ⟨rfl, rfl⟩
    · exact ⟨rfl, rfl⟩
  refine ⟨List.forall_mem_cons.mpr ⟨fun htag => ?_, htexts.2⟩,
    List.forall_mem_cons.mpr ⟨hadd.2 ▸ hchildren.1, hchildren.2⟩, hroot⟩
  rw [hadd.1] at htag
  exact absurd htag hf

variable (hP : ∀ tag text children, (tag = T → text.length ≤ N) → P (mk tag (content text) children))
  (hQ : ∀ tag text children, (∀ c ∈ children, P c) → Q (mk tag text children))

include hP hQ

theorem State.Bounded.close {n : ℕ} {f : Frame E} {fs : List (Frame E)} {r : Option E}
    (h : (⟨f :: fs, r⟩ : State E).Bounded T P Q n) (hn : n ≤ N) :
    (State.close fs (f.element mk)).Bounded T P Q n := by
  obtain ⟨htexts, hchildren, -⟩ := h
  rw [List.forall_mem_cons] at htexts hchildren
  have helement : P (f.element mk) := hP _ _ _ fun htag => Nat.le_trans (htexts.1 htag) hn
  cases fs with
  | nil =>
    refine ⟨by simp [State.close], by simp [State.close], fun e he => ?_⟩
    cases he
    exact hQ _ _ _ fun c hc => hchildren.1 c (List.mem_reverse.mp hc)
  | cons g gs =>
    rw [List.forall_mem_cons] at htexts hchildren
    refine ⟨?_, ?_, fun e he => by cases he⟩
    · exact List.forall_mem_cons.mpr htexts.2
    · exact List.forall_mem_cons.mpr ⟨List.forall_mem_cons.mpr ⟨helement, hchildren.2.1⟩, hchildren.2.2⟩

/-- A token adds at most the characters that it stands for. -/
theorem State.Bounded.step {n : ℕ} {s s' : State E} {t : Token} (h : s.Bounded T P Q n)
    (hn : n + t.chars.length ≤ N) (hstep : step mk ns s t = some s') :
    s'.Bounded T P Q (n + t.chars.length) := by
  obtain ⟨stack, root⟩ := s
  have hadd : ∀ f fs, stack = f :: fs →
      (⟨f.add t.chars :: fs, root⟩ : State E).Bounded T P Q (n + t.chars.length) := by
    rintro f fs rfl
    obtain ⟨htexts, hchildren, hroot⟩ := h
    rw [List.forall_mem_cons] at htexts hchildren
    rw [Frame.add]
    split_ifs with hnil
    · refine ⟨List.forall_mem_cons.mpr ⟨fun htag => ?_, fun g hg htag => ?_⟩,
        List.forall_mem_cons.mpr hchildren, hroot⟩
      · rw [List.length_append]
        exact Nat.add_le_add_right (htexts.1 htag) _
      · exact Nat.le_trans (htexts.2 g hg htag) (Nat.le_add_right _ _)
    · refine ⟨List.forall_mem_cons.mpr ⟨fun htag => ?_, fun g hg htag => ?_⟩,
        List.forall_mem_cons.mpr hchildren, hroot⟩
      · exact Nat.le_trans (htexts.1 htag) (Nat.le_add_right _ _)
      · exact Nat.le_trans (htexts.2 g hg htag) (Nat.le_add_right _ _)
  cases t with
  | text c =>
    cases stack with
    | nil =>
      simp only [Xml.step] at hstep
      split_ifs at hstep
      cases hstep
      exact h.mono (Nat.le_add_right _ _)
    | cons f fs =>
      cases hstep
      exact hadd f fs rfl
  | data cs =>
    cases stack with
    | nil => cases hstep
    | cons f fs =>
      cases hstep
      exact hadd f fs rfl
  | ignored =>
    cases hstep
    exact h
  | openTag name as =>
    obtain ⟨f, hf, hs'⟩ := Option.bind_eq_some_iff.mp hstep
    cases hs'
    exact h.push hf
  | emptyTag name as =>
    obtain ⟨f, hf, hs'⟩ := Option.bind_eq_some_iff.mp hstep
    cases hs'
    exact (h.push hf).close hP hQ hn
  | closeTag name =>
    cases stack with
    | nil => cases hstep
    | cons f fs =>
      simp only [Xml.step] at hstep
      split_ifs at hstep
      cases hstep
      exact h.close hP hQ hn

/-- Tokens add at most the characters that they stand for. -/
theorem State.Bounded.foldlM {s' : State E} : ∀ {ts : List Token} {n : ℕ} {s : State E},
    s.Bounded T P Q n → n + width ts ≤ N → ts.foldlM (Xml.step mk ns) s = some s' →
      s'.Bounded T P Q (n + width ts)
  | [], _, _, h, _, hfold => by
    cases hfold
    exact h
  | t :: ts, n, s, h, hn, hfold => by
    rw [width_cons, ← Nat.add_assoc] at hn ⊢
    obtain ⟨s₁, hstep, hfold⟩ := Option.bind_eq_some_iff.mp hfold
    exact (h.step hP hQ (by omega) hstep).foldlM hn hfold

end

end

end Xml
