/-
# Events as XML

The text that `getAsString` prints for an event, within its `EVENT` tags, and
what the analyzer makes of it. The text of the event is escaped and is read back
as it was; the location in the code is not, and is read back as it was exactly
if it has nothing to escape (`roundTrips_iff`).

Key definitions: `encodeToXML`, `SymExecEvent.getAsString`, `SymExecEvent.xml`,
`SymExecEvent.RoundTrips`.
Key theorems: `encodeToXML_eq`, `SymExecEvent.read_xml`,
`SymExecEvent.exists_codeTokens`, `SymExecEvent.shortCodes_of_read`,
`SymExecEvent.roundTrips_iff`.
-/
import Apisan.Lib.XmlSplit
import Apisan.Extractor.DumpTree

namespace Apisan

open Python

/-- `boost::replace_all`, of a character. -/
def replaceAll (c : Char) (r s : List Char) : List Char := s.flatMap fun d => if d = c then r else [d]

/-- `encodeToXML`. -/
def encodeToXML (xml : String) : String :=
  let xml := replaceAll '&' ['&', 'a', 'm', 'p', ';'] xml.toList
  let xml := replaceAll '>' ['&', 'g', 't', ';'] xml
  let xml := replaceAll '<' ['&', 'l', 't', ';'] xml
  String.ofList xml

/-- **The three passes make an escaped text**: none sees what an earlier one
wrote. -/
theorem encodeToXML_eq (s : String) : (encodeToXML s).toList = Xml.escape s.toList := by
  rw [encodeToXML, String.toList_ofList, replaceAll, replaceAll, replaceAll, List.flatMap_assoc,
    List.flatMap_assoc, Xml.escape]
  congr 1
  funext c
  rw [Xml.escapeChar]
  by_cases h₁ : c = '&'
  · subst h₁
    decide
  by_cases h₂ : c = '>'
  · subst h₂
    decide
  by_cases h₃ : c = '<'
  · subst h₃
    decide
  · simp [h₁, h₂, h₃]

/-- The characters that a document may hold as they are, line ends apart. -/
def Legal (s : String) : Prop := ∀ c ∈ s.toList, Xml.isChar c = true ∧ c ≠ '\r'

instance (s : String) : Decidable (Legal s) := List.decidableBAll _ s.toList

theorem Legal.notMem {s : String} (h : Legal s) : '\r' ∉ s.toList := fun hmem => (h _ hmem).2 rfl

namespace SymExecEvent

/-- `getKindAsXMLNode`. -/
def getKindAsXMLNode (e : SymExecEvent) : String := "<KIND>" ++ kindText e.kind ++ "</KIND>"

/-- `getCodeAsXMLNode`. -/
def getCodeAsXMLNode (e : SymExecEvent) : String := "<CODE>" ++ e.code ++ "</CODE>"

/-- `getAsString`. -/
def getAsString (e : SymExecEvent) : String :=
  e.getKindAsXMLNode ++ match e.kind with
    | .fnCall => e.getCodeAsXMLNode ++ ("<CALL>" ++ encodeToXML e.sv ++ "</CALL>")
    | .fnReturn => e.getCodeAsXMLNode ++ ("<RETURN>" ++ encodeToXML e.sv ++ "</RETURN>")
    | .assume => "<COND>" ++ encodeToXML e.sv ++ "</COND>"
    | .eop => ""

/-- What `dumpTree` prints for an event. -/
def xml (e : SymExecEvent) : String := "<EVENT>" ++ e.getAsString ++ "</EVENT>"

/-- The event of the analyzer with the same kind, location and text. -/
def same (e : SymExecEvent) : Event :=
  match e.kind with
  | .fnCall => .call ⟨some (some e.sv), some (some e.code)⟩
  | .fnReturn => .ret ⟨some (some e.sv), some (some e.code)⟩
  | .assume => .assume (some (some e.sv))
  | .eop => .eop

/-- What is printed is well-formed, and the event that the analyzer builds of
the element is the same. -/
def RoundTrips (ns : Xml.Namespaces) (e : SymExecEvent) : Prop :=
  ∃ element, Xml.read Element.mk ns e.xml = some element ∧
    ExecNode.parseEvent noResolver (some element) = .ok e.same

/-! ### What is printed -/

/-- The `KIND` element. -/
def kindLeaf (k : Kind) : Xml.Leaf where
  name := ['K', 'I', 'N', 'D']
  raw := (kindText k).toList
  chars := (kindText k).toList
  isName := by decide
  unprefixed := by decide
  stands := by
    have hplain : Xml.Plain (kindText k).toList := by cases k <;> decide
    have hchars : (kindText k).toList.all Xml.isChar = true := by cases k <;> decide
    exact hplain.stands (List.all_eq_true.mp hchars)

/-- The `CODE` element, of a plain location. -/
def codeLeaf (code : String) (hlegal : Legal code) (hplain : Xml.Plain code.toList) : Xml.Leaf where
  name := ['C', 'O', 'D', 'E']
  raw := code.toList
  chars := code.toList
  isName := by decide
  unprefixed := by decide
  stands := hplain.stands fun c hc => (hlegal c hc).1

/-- The element with the text of an event. -/
def textLeaf (name : List Char) (hname : Xml.IsName name ∧ ':' ∉ name) (sv : String) (hlegal : Legal sv) :
    Xml.Leaf where
  name := name
  raw := Xml.escape sv.toList
  chars := sv.toList
  isName := hname.1
  unprefixed := hname.2
  stands := Xml.stands_escape fun c hc => (hlegal c hc).1

theorem content_eq (s : String) : Xml.content s.toList = xmlText s := by
  rw [Xml.content, xmlText, String.ofList_toList]
  simp only [String.toList_eq_nil_iff]

/-- The leaves of an event whose location is plain, if it is printed. -/
theorem exists_leaves (e : SymExecEvent) (hcode : Legal e.code) (hsv : Legal e.sv)
    (hplain : e.kind = .fnCall ∨ e.kind = .fnReturn → Xml.Plain e.code.toList) :
    ∃ ls : List Xml.Leaf, e.xml.toList = Xml.documentText ['E', 'V', 'E', 'N', 'T'] ls ∧
      Element.mk "EVENT" none (ls.map (Xml.Leaf.element Element.mk)) = e.element := by
  obtain ⟨kind, code, sv⟩ := e
  cases kind with
  | fnCall =>
    refine ⟨[kindLeaf .fnCall, codeLeaf code hcode (hplain (.inl rfl)),
      textLeaf ['C', 'A', 'L', 'L'] (by decide) sv hsv], ?_, ?_⟩
    · simp [xml, getAsString, getKindAsXMLNode, getCodeAsXMLNode, Xml.documentText, Xml.Leaf.text, kindLeaf,
        codeLeaf, textLeaf, encodeToXML_eq]
    · simp [Xml.Leaf.element, kindLeaf, codeLeaf, textLeaf, content_eq, element, xmlLeaf]
  | fnReturn =>
    refine ⟨[kindLeaf .fnReturn, codeLeaf code hcode (hplain (.inr rfl)),
      textLeaf ['R', 'E', 'T', 'U', 'R', 'N'] (by decide) sv hsv], ?_, ?_⟩
    · simp [xml, getAsString, getKindAsXMLNode, getCodeAsXMLNode, Xml.documentText, Xml.Leaf.text, kindLeaf,
        codeLeaf, textLeaf, encodeToXML_eq]
    · simp [Xml.Leaf.element, kindLeaf, codeLeaf, textLeaf, content_eq, element, xmlLeaf]
  | assume =>
    refine ⟨[kindLeaf .assume, textLeaf ['C', 'O', 'N', 'D'] (by decide) sv hsv], ?_, ?_⟩
    · simp [xml, getAsString, getKindAsXMLNode, Xml.documentText, Xml.Leaf.text, kindLeaf, textLeaf,
        encodeToXML_eq]
    · simp [Xml.Leaf.element, kindLeaf, textLeaf, content_eq, element, xmlLeaf]
  | eop =>
    refine ⟨[kindLeaf .eop], ?_, ?_⟩
    · simp [xml, getAsString, getKindAsXMLNode, Xml.documentText, Xml.Leaf.text, kindLeaf]
    · simp [Xml.Leaf.element, kindLeaf, content_eq, element, xmlLeaf]

/-- No line end is printed that is read as another character. -/
theorem notMem_xml (e : SymExecEvent) (hcode : '\r' ∉ e.code.toList) (hsv : '\r' ∉ e.sv.toList) :
    '\r' ∉ e.xml.toList := by
  have hsv' : '\r' ∉ (encodeToXML e.sv).toList := by
    rw [encodeToXML_eq, Xml.escape, List.mem_flatMap]
    rintro ⟨c, hc, hmem⟩
    rw [Xml.escapeChar] at hmem
    split_ifs at hmem
    · exact absurd hmem (by decide)
    · exact absurd hmem (by decide)
    · exact absurd hmem (by decide)
    · exact hsv (List.mem_singleton.mp hmem ▸ hc)
  obtain ⟨kind, code, sv⟩ := e
  cases kind <;> simp_all [xml, getAsString, getKindAsXMLNode, getCodeAsXMLNode, kindText]

variable {ns : Xml.Namespaces}

/-- **What is printed is read back as its element**, if the location is plain. -/
theorem read_xml (ns : Xml.Namespaces) (e : SymExecEvent) (hcode : Legal e.code) (hsv : Legal e.sv)
    (hplain : e.kind = .fnCall ∨ e.kind = .fnReturn → Xml.Plain e.code.toList) :
    Xml.read Element.mk ns e.xml = some e.element := by
  obtain ⟨ls, htext, helement⟩ := exists_leaves e hcode hsv hplain
  obtain ⟨ts, hts, hbuild⟩ : ∃ ts, Xml.Tokens (Xml.documentText ['E', 'V', 'E', 'N', 'T'] ls) ts ∧
      Xml.build Element.mk ns ts = some (Element.mk "EVENT" none (ls.map (Xml.Leaf.element Element.mk))) :=
    Xml.build_leaves (by decide) (by decide) ls
  rw [Xml.read_eq_some (notMem_xml e hcode.notMem hsv.notMem), htext]
  exact ⟨ts, hts, helement ▸ hbuild⟩

theorem toEvent_eq_same {e : SymExecEvent} (hsv : e.sv ≠ "") :
    e.toEvent = e.same ↔ (e.kind = .fnCall ∨ e.kind = .fnReturn → e.code ≠ "") := by
  obtain ⟨kind, code, sv⟩ := e
  have hsv : sv ≠ "" := hsv
  by_cases hcode : code = "" <;> cases kind <;> simp [toEvent, same, xmlText, hsv, hcode]

/-! ### Before and after a location -/

/-- What is printed before a location. -/
def beforeCode (k : Kind) : List Char :=
  '<' :: (['E', 'V', 'E', 'N', 'T'] ++ '>' :: ((kindLeaf k).text ++ '<' :: (['C', 'O', 'D', 'E'] ++ ['>'])))

/-- What is printed after a location, with the name of the text's element. -/
def afterCode (name sv : List Char) : List Char :=
  '<' :: '/' :: (['C', 'O', 'D', 'E'] ++ '>' :: '<' :: (name ++ '>' :: (Xml.escape sv ++
    '<' :: '/' :: (name ++ '>' :: '<' :: '/' :: (['E', 'V', 'E', 'N', 'T'] ++ ['>'])))))

/-- What is printed for a call or a return. -/
theorem xml_eq (e : SymExecEvent) (hkind : e.kind = .fnCall ∨ e.kind = .fnReturn) :
    ∃ name, (name = ['C', 'A', 'L', 'L'] ∨ name = ['R', 'E', 'T', 'U', 'R', 'N']) ∧
      e.xml.toList = beforeCode e.kind ++ (e.code.toList ++ afterCode name e.sv.toList) := by
  obtain ⟨kind, code, sv⟩ := e
  rcases hkind with rfl | rfl
  · refine ⟨['C', 'A', 'L', 'L'], .inl rfl, ?_⟩
    simp [xml, getAsString, getKindAsXMLNode, getCodeAsXMLNode, Xml.Leaf.text, kindLeaf, beforeCode, afterCode,
      encodeToXML_eq]
  · refine ⟨['R', 'E', 'T', 'U', 'R', 'N'], .inr rfl, ?_⟩
    simp [xml, getAsString, getKindAsXMLNode, getCodeAsXMLNode, Xml.Leaf.text, kindLeaf, beforeCode, afterCode,
      encodeToXML_eq]

/-- Where the location begins, its element and the event's are open. -/
def codeState (k : Kind) : Xml.State Element where
  stack := [⟨['C', 'O', 'D', 'E'], "CODE", [], [], []⟩,
    ⟨['E', 'V', 'E', 'N', 'T'], "EVENT", [], [], [(kindLeaf k).element Element.mk]⟩]
  root := none

theorem scan_beforeCode (ns : Xml.Namespaces) (k : Kind) (rest : List Char) :
    ∃ us, Xml.Scan (beforeCode k ++ rest) us rest ∧
      us.foldlM (Xml.step Element.mk ns) ⟨[], none⟩ = some (codeState k) := by
  let event : Xml.Frame Element := ⟨['E', 'V', 'E', 'N', 'T'], "EVENT", [], [], []⟩
  have hevent : Xml.Unscoped [event] := by simp [Xml.Unscoped, event]
  obtain ⟨us, hscan, hfold⟩ : ∃ us, Xml.Scan ((kindLeaf k).text ++ '<' :: (['C', 'O', 'D', 'E'] ++ '>' :: rest)) us
      ('<' :: (['C', 'O', 'D', 'E'] ++ '>' :: rest)) ∧ us.foldlM (Xml.step Element.mk ns) ⟨[event], none⟩ =
        some ⟨[{ event with children := [(kindLeaf k).element Element.mk] }], none⟩ :=
    Xml.scan_leaf _ hevent _
  have htext : beforeCode k ++ rest = '<' :: (['E', 'V', 'E', 'N', 'T'] ++ '>' :: ((kindLeaf k).text ++
      '<' :: (['C', 'O', 'D', 'E'] ++ '>' :: rest))) := by simp [beforeCode]
  refine ⟨[Xml.Token.openTag ['E', 'V', 'E', 'N', 'T'] []] ++ (us ++
    [Xml.Token.openTag ['C', 'O', 'D', 'E'] []]), ?_, ?_⟩
  · rw [htext]
    exact (Xml.scan_openTag (by decide) _).append (hscan.append (Xml.scan_openTag (by decide) rest))
  · have hpush : Xml.State.push ns (⟨[], none⟩ : Xml.State Element) ['E', 'V', 'E', 'N', 'T'] [] = some event :=
      Xml.push_unscoped (by simp [Xml.Unscoped]) (.inr rfl) (by decide)
    have hpush' : Xml.State.push ns
        ⟨[{ event with children := [(kindLeaf k).element Element.mk] }], none⟩ ['C', 'O', 'D', 'E'] [] =
          some ⟨['C', 'O', 'D', 'E'], "CODE", [], [], []⟩ :=
      Xml.push_unscoped (by simp [Xml.Unscoped, event]) (.inr rfl) (by decide)
    have hopen : Xml.step Element.mk ns ⟨[], none⟩ (.openTag ['E', 'V', 'E', 'N', 'T'] []) =
        some ⟨[event], none⟩ := by simp [Xml.step, hpush]
    rw [List.singleton_append, List.foldlM_cons, hopen]
    show (us ++ [Xml.Token.openTag ['C', 'O', 'D', 'E'] []]).foldlM (Xml.step Element.mk ns) _ = _
    rw [List.foldlM_append, hfold]
    simp [Xml.step, hpush', codeState, event]

/-- Nothing that a location opens ends after it. -/
theorem sealed_afterCode {name : List Char} (sv : List Char)
    (h : name = ['C', 'A', 'L', 'L'] ∨ name = ['R', 'E', 'T', 'U', 'R', 'N']) :
    Xml.Sealed (afterCode name sv) := by
  refine ⟨rfl, ?_⟩
  rcases h with rfl | rfl
  · have htext : afterCode ['C', 'A', 'L', 'L'] sv =
        ['<', '/', 'C', 'O', 'D', 'E', '>', '<', 'C', 'A', 'L', 'L', '>'] ++ (Xml.escape sv ++
          '<' :: ['/', 'C', 'A', 'L', 'L', '>', '<', '/', 'E', 'V', 'E', 'N', 'T', '>']) := by simp [afterCode]
    rw [htext]
    exact Xml.isChain_escape _ (by decide) (by decide)
  · have htext : afterCode ['R', 'E', 'T', 'U', 'R', 'N'] sv =
        ['<', '/', 'C', 'O', 'D', 'E', '>', '<', 'R', 'E', 'T', 'U', 'R', 'N', '>'] ++ (Xml.escape sv ++
          '<' :: ['/', 'R', 'E', 'T', 'U', 'R', 'N', '>', '<', '/', 'E', 'V', 'E', 'N', 'T', '>']) := by
      simp [afterCode]
    rw [htext]
    exact Xml.isChain_escape _ (by decide) (by decide)

/-- The tokens after a location, around those of the text. -/
def codeTokens (name : List Char) (us : List Xml.Token) : List Xml.Token :=
  [.closeTag ['C', 'O', 'D', 'E'], .openTag name []] ++ (us ++ [.closeTag name, .closeTag ['E', 'V', 'E', 'N', 'T']])

theorem tokens_afterCode {name sv : List Char} (hname : Xml.IsName name) (hsv : ∀ c ∈ sv, Xml.isChar c = true) :
    ∃ us, (∀ t ∈ us, t.IsChars) ∧ us.flatMap Xml.Token.chars = sv ∧
      Xml.Tokens (afterCode name sv) (codeTokens name us) := by
  obtain ⟨us, hchars, hflat, hscan⟩ := Xml.stands_escape hsv
    ('<' :: '/' :: (name ++ '>' :: '<' :: '/' :: (['E', 'V', 'E', 'N', 'T'] ++ ['>']))) rfl
  exact ⟨us, hchars, hflat, (Xml.scan_closeTag (n := ['C', 'O', 'D', 'E']) (by decide) _).append
    ((Xml.scan_openTag hname _).append (hscan.append ((Xml.scan_closeTag hname _).append
      (Xml.scan_closeTag (n := ['E', 'V', 'E', 'N', 'T']) (by decide) []))))⟩

/-- The tokens after a location are these, and the text has characters of
documents. -/
theorem exists_codeTokens {name sv : List Char} (hname : Xml.IsName name) {ts : List Xml.Token}
    (hts : Xml.Tokens (afterCode name sv) ts) : (∀ c ∈ sv, Xml.isChar c = true) ∧
      ∃ us : List Xml.Token, (∀ t ∈ us, t.IsChars) ∧ us.flatMap Xml.Token.chars = sv ∧ ts = codeTokens name us := by
  have hsv : ∀ c ∈ sv, Xml.isChar c = true := by
    have hopen := (Xml.scan_closeTag (n := ['C', 'O', 'D', 'E']) (by decide) _).append (Xml.scan_openTag hname
      (Xml.escape sv ++ '<' :: '/' :: (name ++ '>' :: '<' :: '/' :: (['E', 'V', 'E', 'N', 'T'] ++ ['>']))))
    obtain ⟨us, -, hus⟩ := hopen.tokens hts
    exact Xml.isChar_of_tokens hus
  obtain ⟨us, hchars, hflat, hall⟩ := tokens_afterCode hname hsv
  obtain ⟨rest, rfl, hrest⟩ := hall.tokens hts
  refine ⟨hsv, us, hchars, hflat, ?_⟩
  cases hrest with
  | nil => rw [List.append_nil]
  | cons ht _ => cases ht

/-! ### A location that is not plain -/

/-- A location has at most `N` characters. -/
def ShortCode (N : ℕ) (c : Element) : Prop := c.tag = "CODE" → ∀ x, c.text = some x → x.toList.length ≤ N

/-- The children that are locations have at most `N` characters. -/
def ShortCodes (N : ℕ) (e : Element) : Prop := ∀ c ∈ e.children, ShortCode N c

theorem shortCode_mk (N : ℕ) (tag : String) (text : List Char) (children : List Element)
    (h : tag = "CODE" → text.length ≤ N) : ShortCode N (.mk tag (Xml.content text) children) := by
  intro htag x hx
  have hx : Xml.content text = some x := hx
  rw [Xml.content] at hx
  split_ifs at hx
  cases hx
  rw [String.toList_ofList]
  exact h htag

theorem shortCodes_mk (N : ℕ) (tag : String) (text : Option String) (children : List Element)
    (h : ∀ c ∈ children, ShortCode N c) : ShortCodes N (.mk tag text children) := h

/-- What is printed after a location adds nothing to it. -/
theorem bounded_afterCode {name sv : List Char}
    (h : name = ['C', 'A', 'L', 'L'] ∨ name = ['R', 'E', 'T', 'U', 'R', 'N'])
    {ts : List Xml.Token} (hts : Xml.Tokens (afterCode name sv) ts) {N : ℕ}
    {s s' : Xml.State Element} (hs : s.Bounded "CODE" (ShortCode N) (ShortCodes N) N)
    (hfold : ts.foldlM (Xml.step Element.mk ns) s = some s') :
    s'.Bounded "CODE" (ShortCode N) (ShortCodes N) N := by
  have hP := shortCode_mk N
  have hQ : ∀ tag text children, (∀ c ∈ children, ShortCode N c) →
      ShortCodes N (Element.mk tag text children) := shortCodes_mk N
  have hkeep : ∀ {s s' : Xml.State Element} {t : Xml.Token}, t.chars = [] →
      s.Bounded "CODE" (ShortCode N) (ShortCodes N) N → Xml.step Element.mk ns s t = some s' →
        s'.Bounded "CODE" (ShortCode N) (ShortCodes N) N := by
    intro s s' t ht hs hstep
    have hlen : N + t.chars.length = N := by rw [ht, List.length_nil, Nat.add_zero]
    have hs' := hs.step hP hQ hlen.le hstep
    rwa [hlen] at hs'
  -- the tokens are known
  have hname : Xml.IsName name := by rcases h with rfl | rfl <;> decide
  obtain ⟨-, us, hchars, -, rfl⟩ := exists_codeTokens hname hts
  rw [codeTokens, List.cons_append, List.singleton_append, List.foldlM_cons] at hfold
  obtain ⟨s₁, hclose, hfold⟩ := Option.bind_eq_some_iff.mp hfold
  have hs₁ : s₁.Bounded "CODE" (ShortCode N) (ShortCodes N) N := hkeep rfl hs hclose
  rw [List.foldlM_cons] at hfold
  obtain ⟨s₂, hopen, hfold⟩ := Option.bind_eq_some_iff.mp hfold
  have hs₂ : s₂.Bounded "CODE" (ShortCode N) (ShortCodes N) N := hkeep rfl hs₁ hopen
  obtain ⟨f, hpush, hs₂f⟩ := Option.bind_eq_some_iff.mp hopen
  cases hs₂f
  have htag : f.tag ≠ "CODE" := fun htag => by
    rw [Xml.State.push] at hpush
    split_ifs at hpush
    obtain ⟨tag, hns, hf⟩ := Option.bind_eq_some_iff.mp hpush
    cases hf
    obtain rfl : tag = "CODE" := htag
    rcases ns.expanded hns with hcode | hcode
    · rcases h with rfl | rfl
      · exact absurd hcode (by decide)
      · exact absurd hcode (by decide)
    · exact absurd hcode (by decide)
  rw [List.foldlM_append, Xml.foldlM_chars hchars] at hfold
  obtain ⟨s₃, hs₃, hfold⟩ := Option.bind_eq_some_iff.mp hfold
  cases hs₃
  have hs₃ := hs₂.add htag (us.flatMap Xml.Token.chars)
  rw [List.foldlM_cons] at hfold
  obtain ⟨s₄, hclose', hfold⟩ := Option.bind_eq_some_iff.mp hfold
  have hs₄ : s₄.Bounded "CODE" (ShortCode N) (ShortCodes N) N := hkeep rfl hs₃ hclose'
  rw [List.foldlM_cons] at hfold
  obtain ⟨s₅, hclose'', hfold⟩ := Option.bind_eq_some_iff.mp hfold
  cases hfold
  exact hkeep rfl hs₄ hclose''

/-- **A location that is not plain is read back shorter.** -/
theorem shortCodes_of_read {e : SymExecEvent} (hkind : e.kind = .fnCall ∨ e.kind = .fnReturn)
    (hcode : Legal e.code) (hsv : Legal e.sv) (hnot : ¬ Xml.Plain e.code.toList) {element : Element}
    (h : Xml.read Element.mk ns e.xml = some element) :
    ∃ N < e.code.toList.length, ShortCodes N element := by
  obtain ⟨ts, hts, hbuild⟩ := (Xml.read_eq_some (notMem_xml e hcode.notMem hsv.notMem)).mp h
  obtain ⟨name, hcall, htext⟩ := xml_eq e hkind
  rw [htext] at hts
  obtain ⟨us, hbefore, hstart⟩ := scan_beforeCode ns e.kind (e.code.toList ++ afterCode name e.sv.toList)
  obtain ⟨vs, rfl, hvs⟩ := hbefore.tokens hts
  obtain ⟨ts₁, ts₂, rfl, hts₂, -, hle, hplain⟩ := Xml.Tokens.split hvs (sealed_afterCode e.sv.toList hcall)
  have hlt : Xml.width ts₁ < e.code.toList.length :=
    Nat.lt_of_le_of_ne hle fun heq => hnot (hplain heq)
  refine ⟨Xml.width ts₁, hlt, ?_⟩
  obtain ⟨s, hrun, hroot⟩ := Option.bind_eq_some_iff.mp hbuild
  rw [List.foldlM_append, hstart] at hrun
  obtain ⟨s₁, hrun₁, hrun₂⟩ : ∃ s₁, ts₁.foldlM (Xml.step Element.mk ns) (codeState e.kind) = some s₁ ∧
      ts₂.foldlM (Xml.step Element.mk ns) s₁ = some s := by
    have hboth := hrun
    rw [Option.bind_eq_bind, Option.bind_some, List.foldlM_append] at hboth
    exact Option.bind_eq_some_iff.mp hboth
  have hbounded : (codeState e.kind).Bounded "CODE" (ShortCode (Xml.width ts₁)) (ShortCodes (Xml.width ts₁)) 0 := by
    refine ⟨by simp [codeState], ?_, by simp [codeState]⟩
    have hkindCode : ShortCode (Xml.width ts₁) ((kindLeaf e.kind).element Element.mk) := fun htag =>
      absurd htag (by simp [Xml.Leaf.element, kindLeaf, Element.tag])
    simpa [codeState] using hkindCode
  have hend := bounded_afterCode hcall hts₂
    ((hbounded.foldlM (shortCode_mk _) (shortCodes_mk _) (by omega) hrun₁).mono (by omega)) hrun₂
  split_ifs at hroot
  exact hend.root element hroot

/-- The location of a call or a return is the text of a `CODE` child. -/
theorem code_of_foldlM {kind : EventKind} {tag : String} {b : CallAttributes} : ∀ {cs : List Element}
    {a : CallAttributes}, cs.foldlM (callChild kind tag noResolver) a = .ok b →
      b.code = a.code ∨ ∃ c ∈ cs, c.tag = "CODE" ∧ b.code = some c.text
  | [], a, h => by
    cases h
    exact .inl rfl
  | c :: cs, a, h => by
    obtain ⟨a', ha', h⟩ := bind_eq_ok.mp h
    have htail := code_of_foldlM h
    rcases htail with hcode | ⟨d, hd, hdtag, hdcode⟩
    · rw [callChild] at ha'
      split_ifs at ha' with hkind htag hctag
      · rw [checkKind] at ha'
        split_ifs at ha'
        cases ha'
        exact .inl hcode
      · cases ha'
        exact .inl hcode
      · cases ha'
        exact .inr ⟨c, List.mem_cons_self, hctag, hcode⟩
    · exact .inr ⟨d, List.mem_cons_of_mem _ hd, hdtag, hdcode⟩

theorem eop_of_eopEvent {node : Element} {event : Event} (h : eopEvent node = .ok event) : event = .eop := by
  have hkeep : ∀ {cs : List Element} {a b : Event}, cs.foldlM (fun a child =>
      if child.tag = "KIND" then checkKind .eop child a else .error .valueError) a = .ok b → b = a := by
    intro cs
    induction cs with
    | nil =>
      intro a b h
      cases h
      rfl
    | cons c cs ih =>
      intro a b h
      obtain ⟨a', ha', h⟩ := bind_eq_ok.mp h
      rw [ih h]
      simp only at ha'
      split_ifs at ha'
      rw [checkKind] at ha'
      split_ifs at ha'
      cases ha'
      rfl
  exact hkeep h

/-- The event's location is the text of a `CODE` child. -/
theorem exists_code {e : SymExecEvent} (hkind : e.kind = .fnCall ∨ e.kind = .fnReturn) {element : Element}
    (h : ExecNode.parseEvent noResolver (some element) = .ok e.same) :
    ∃ c ∈ element.children, c.tag = "CODE" ∧ c.text = some e.code := by
  obtain ⟨kind, code, sv⟩ := e
  have hfound : ∀ {kind' tag a}, a.code = some (some code) →
      element.children.foldlM (callChild kind' tag noResolver) ⟨none, none⟩ = .ok a →
        ∃ c ∈ element.children, c.tag = "CODE" ∧ c.text = some code := by
    intro kind' tag a hcode hfold
    rcases code_of_foldlM hfold with hnone | ⟨c, hc, htag, hc'⟩
    · rw [hcode] at hnone
      cases hnone
    · exact ⟨c, hc, htag, Option.some.inj (hc'.symm.trans hcode)⟩
  rw [ExecNode.parseEvent] at h
  split at h
  · cases h
  · split_ifs at h
    · obtain ⟨a, ha, heq⟩ := bind_eq_ok.mp h
      rcases hkind with rfl | rfl
      · cases heq
        exact hfound rfl ha
      · cases heq
    · obtain ⟨a, ha, heq⟩ := bind_eq_ok.mp h
      rcases hkind with rfl | rfl
      · cases heq
      · cases heq
        exact hfound rfl ha
    · obtain ⟨a, -, heq⟩ := bind_eq_ok.mp h
      rcases hkind with rfl | rfl <;> cases heq
    · have heop := eop_of_eopEvent h
      rcases hkind with rfl | rfl <;> cases heop
    · obtain ⟨a, -, heq⟩ := bind_eq_ok.mp h
      rcases hkind with rfl | rfl <;> cases heq

/-- **Which events round-trip.** Conditions and ends of paths always do; calls
and returns do exactly if their location has nothing to escape and is not
empty. -/
theorem roundTrips_iff (ns : Xml.Namespaces) (e : SymExecEvent) (hcode : Legal e.code) (hsv : Legal e.sv)
    (hne : e.sv ≠ "") : e.RoundTrips ns ↔
      (e.kind = .fnCall ∨ e.kind = .fnReturn → e.code ≠ "" ∧ Xml.Plain e.code.toList) := by
  constructor
  · rintro ⟨element, hread, hparse⟩ hkind
    have hplain : Xml.Plain e.code.toList := by
      by_contra hnot
      obtain ⟨N, hN, hshort⟩ := shortCodes_of_read hkind hcode hsv hnot hread
      obtain ⟨c, hc, htag, htext⟩ := exists_code hkind hparse
      exact absurd (hshort c hc htag _ htext) (by omega)
    rw [read_xml ns e hcode hsv fun _ => hplain] at hread
    cases hread
    rw [parseEvent_element] at hparse
    exact ⟨(toEvent_eq_same hne).mp (Except.ok.inj hparse) hkind, hplain⟩
  · intro h
    refine ⟨e.element, read_xml ns e hcode hsv fun hkind => (h hkind).2, ?_⟩
    rw [parseEvent_element, (toEvent_eq_same hne).mpr fun hkind => (h hkind).1]

/-- The call of a file with `&` in its name is not well-formed. -/
theorem not_roundTrips_ampersand :
    let e : SymExecEvent := ⟨.fnCall, "a&b.c:5", "f(x)"⟩
    Legal e.code ∧ Legal e.sv ∧ e.sv ≠ "" ∧ Xml.read Element.mk Xml.noNamespaces e.xml = none ∧
      ¬ e.RoundTrips Xml.noNamespaces := by
  intro e
  have hnone : (Xml.read Element.mk Xml.noNamespaces e.xml).isNone = true := by decide +kernel
  have hread := Option.isNone_iff_eq_none.mp hnone
  refine ⟨by decide, by decide, by decide, hread, ?_⟩
  rintro ⟨element, h, -⟩
  rw [hread] at h
  cases h

/-- The text of a call may have anything. -/
theorem roundTrips_operators : (⟨.fnCall, "a.c:5", "f(a && b -> c, \"<x>\")"⟩ : SymExecEvent).RoundTrips
    Xml.noNamespaces :=
  (roundTrips_iff Xml.noNamespaces _ (by decide) (by decide) (by decide)).mpr (by decide)

end SymExecEvent

end Apisan
