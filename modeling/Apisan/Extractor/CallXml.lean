/-
# Calls as they are read

The location of a call is printed as it is, and may have markup of its own. What
it leaves open or closes decides whether the printed event is well-formed; the
text of the call, which is escaped, only has to be made of characters of XML. So
whether a call is read depends on its location (`Located`), and its name on its
text (`readsCall_iff`).

Key definitions: `ReadsCall`, `Located`, `asRead`, `Calls`.
Key theorems: `element_codeTokens`, `read_call`, `readsCall_iff`,
`located_of_plain`.
-/
import Apisan.Check.Checker
import Apisan.Extractor.EventXml

namespace Apisan

open Python SymExecEvent

variable {ns : Xml.Namespaces}

/-! ### Reading what follows a location -/

/-- The document's element, if no element is open. -/
def documentElement (s : Xml.State Element) : Option Element := if s.stack = [] then s.root else none

theorem foldlM_codeTokens (ns : Xml.Namespaces) (name : List Char) (us : List Xml.Token) (s : Xml.State Element) :
    (codeTokens name us).foldlM (Xml.step Element.mk ns) s =
      ((Xml.step Element.mk ns s (.closeTag ['C', 'O', 'D', 'E'])).bind fun s =>
        (Xml.step Element.mk ns s (.openTag name [])).bind fun s =>
          (us.foldlM (Xml.step Element.mk ns) s).bind fun s =>
            (Xml.step Element.mk ns s (.closeTag name)).bind fun s =>
              Xml.step Element.mk ns s (.closeTag ['E', 'V', 'E', 'N', 'T'])) := by
  simp [codeTokens]

/-- What follows a location is not read, or it is read as a last child with the
text. -/
theorem element_codeTokens (ns : Xml.Namespaces) (name : List Char) (s : Xml.State Element) :
    (∀ us : List Xml.Token, (∀ t ∈ us, t.IsChars) →
      ((codeTokens name us).foldlM (Xml.step Element.mk ns) s).bind documentElement = none) ∨
    ∃ tag text cs t, (t = String.ofList name ∨ t.toList.head? = some '{') ∧
      ∀ us : List Xml.Token, (∀ t ∈ us, t.IsChars) →
        ((codeTokens name us).foldlM (Xml.step Element.mk ns) s).bind documentElement =
          some (.mk tag text (cs ++ [.mk t (Xml.content (us.flatMap Xml.Token.chars)) []])) := by
  simp only [foldlM_codeTokens]
  cases hclose : Xml.step Element.mk ns s (.closeTag ['C', 'O', 'D', 'E']) with
  | none => exact .inl fun _ _ => rfl
  | some s₁ =>
    obtain ⟨stack, root⟩ := s₁
    simp only [Option.bind_some]
    cases hopen : Xml.step Element.mk ns ⟨stack, root⟩ (.openTag name []) with
    | none => exact .inl fun _ _ => rfl
    | some s₂ =>
      obtain ⟨f, hpush, hs₂⟩ := Option.bind_eq_some_iff.mp hopen
      rw [Xml.State.push] at hpush
      split_ifs at hpush
      obtain ⟨t, htag, hf⟩ := Option.bind_eq_some_iff.mp hpush
      cases hf
      cases hs₂
      have hrun : ∀ us : List Xml.Token, (∀ t ∈ us, t.IsChars) →
          ((us.foldlM (Xml.step Element.mk ns) ⟨⟨name, t, [], [], []⟩ :: stack, root⟩).bind fun s =>
            (Xml.step Element.mk ns s (.closeTag name)).bind fun s =>
              Xml.step Element.mk ns s (.closeTag ['E', 'V', 'E', 'N', 'T'])) =
            Xml.step Element.mk ns (Xml.State.close stack
              (.mk t (Xml.content (us.flatMap Xml.Token.chars)) [])) (.closeTag ['E', 'V', 'E', 'N', 'T']) := by
        intro us hus
        rw [Xml.foldlM_chars hus]
        simp [Xml.step, Xml.Frame.add, Xml.Frame.element]
      simp only [Option.bind_some]
      cases stack with
      | nil =>
        refine .inl fun us hus => ?_
        rw [hrun us hus]
        rfl
      | cons g gs =>
        by_cases hevent : g.name = ['E', 'V', 'E', 'N', 'T']
        · have hclosed : ∀ e : Element, Xml.step Element.mk ns (Xml.State.close (g :: gs) e)
              (.closeTag ['E', 'V', 'E', 'N', 'T']) =
                some (Xml.State.close gs (.mk g.tag (Xml.content g.text) (g.children.reverse ++ [e]))) := by
            intro e
            simp [Xml.step, Xml.State.close, Xml.Frame.element, hevent]
          cases gs with
          | nil =>
            refine .inr ⟨g.tag, Xml.content g.text, g.children.reverse, t, ns.expanded htag, fun us hus => ?_⟩
            rw [hrun us hus, hclosed]
            rfl
          | cons h hs =>
            refine .inl fun us hus => ?_
            rw [hrun us hus, hclosed]
            rfl
        · refine .inl fun us hus => ?_
          rw [hrun us hus]
          simp [Xml.step, Xml.State.close, hevent]

/-! ### Reading a call -/

/-- The characters of a text are those of documents. -/
def Chars (s : String) : Prop := ∀ c ∈ s.toList, Xml.isChar c = true

instance (s : String) : Decidable (Chars s) := List.decidableBAll _ s.toList

theorem xml_ofCall (code sv : String) : (ofCall .fnCall code sv).xml.toList =
    beforeCode .fnCall ++ (code.toList ++ afterCode ['C', 'A', 'L', 'L'] sv.toList) := by
  simp [ofCall, xml, getAsString, getKindAsXMLNode, getCodeAsXMLNode, Xml.Leaf.text, kindLeaf, beforeCode,
    afterCode, encodeToXML_eq]

variable {code : List Char} {ts₁ : List Xml.Token} {s : Xml.State Element}

/-- Where the location has been read, what follows decides. -/
theorem build_call_iff (hscan : ∀ r, Xml.Scan (code ++ '<' :: r) ts₁ ('<' :: r))
    (hrun : ts₁.foldlM (Xml.step Element.mk ns) (codeState .fnCall) = some s) (sv : List Char) (element : Element) :
    (∃ ts, Xml.Tokens (beforeCode .fnCall ++ (code ++ afterCode ['C', 'A', 'L', 'L'] sv)) ts ∧
      Xml.build Element.mk ns ts = some element) ↔
    ∃ ws : List Xml.Token, (∀ t ∈ ws, t.IsChars) ∧ ws.flatMap Xml.Token.chars = sv ∧
      Xml.Tokens (afterCode ['C', 'A', 'L', 'L'] sv) (codeTokens ['C', 'A', 'L', 'L'] ws) ∧
        ((codeTokens ['C', 'A', 'L', 'L'] ws).foldlM (Xml.step Element.mk ns) s).bind documentElement =
          some element := by
  obtain ⟨us, hbefore, hstart⟩ := scan_beforeCode ns .fnCall (code ++ afterCode ['C', 'A', 'L', 'L'] sv)
  have hbuild : ∀ ts : List Xml.Token, Xml.build Element.mk ns (us ++ (ts₁ ++ ts)) =
      (ts.foldlM (Xml.step Element.mk ns) s).bind documentElement := by
    intro ts
    have hfold : (us ++ (ts₁ ++ ts)).foldlM (Xml.step Element.mk ns) ⟨[], none⟩ =
        ts.foldlM (Xml.step Element.mk ns) s := by
      simp only [List.foldlM_append, hstart, hrun, Option.bind_eq_bind, Option.bind_some]
    rw [Xml.build, hfold]
    rfl
  constructor
  · rintro ⟨ts, hts, hbuilt⟩
    obtain ⟨vs, rfl, hvs⟩ := hbefore.tokens hts
    obtain ⟨ts₂, rfl, hts₂⟩ := (hscan _).tokens hvs
    obtain ⟨-, ws, hchars, hflat, rfl⟩ := exists_codeTokens (by decide) hts₂
    exact ⟨ws, hchars, hflat, hts₂, (hbuild _).symm.trans hbuilt⟩
  · rintro ⟨ws, -, -, hts₂, hbuilt⟩
    exact ⟨_, hbefore.append ((hscan _).append hts₂), (hbuild _).trans hbuilt⟩

/-- If a call is read with some text, the location leads somewhere, whatever
follows it. -/
theorem exists_codeRun {sv : List Char} {ts : List Xml.Token} {element : Element}
    (hts : Xml.Tokens (beforeCode .fnCall ++ (code ++ afterCode ['C', 'A', 'L', 'L'] sv)) ts)
    (hbuilt : Xml.build Element.mk ns ts = some element) :
    ∃ ts₁ s, (∀ r, Xml.Scan (code ++ '<' :: r) ts₁ ('<' :: r)) ∧
      ts₁.foldlM (Xml.step Element.mk ns) (codeState .fnCall) = some s := by
  obtain ⟨us, hbefore, hstart⟩ := scan_beforeCode ns .fnCall (code ++ afterCode ['C', 'A', 'L', 'L'] sv)
  obtain ⟨vs, rfl, hvs⟩ := hbefore.tokens hts
  obtain ⟨ts₁, ts₂, rfl, -, hscan, -, -⟩ := Xml.Tokens.split hvs (sealed_afterCode sv (.inl rfl))
  cases hrun : ts₁.foldlM (Xml.step Element.mk ns) (codeState .fnCall) with
  | none => simp [Xml.build, hstart, hrun] at hbuilt
  | some s => exact ⟨ts₁, s, hscan, hrun⟩

/-- **How a call is read** depends on its text in one place only. -/
theorem read_call (ns : Xml.Namespaces) {code : String} (hcode : '\r' ∉ code.toList) :
    (∀ sv : String, '\r' ∉ sv.toList → Xml.read Element.mk ns (ofCall .fnCall code sv).xml = none) ∨
    ∃ tag text cs t, (t = "CALL" ∨ t.toList.head? = some '{') ∧
      ∀ sv : String, '\r' ∉ sv.toList → ∀ element,
        Xml.read Element.mk ns (ofCall .fnCall code sv).xml = some element ↔
          Chars sv ∧ element = .mk tag text (cs ++ [.mk t (xmlText sv) []]) := by
  have hiff : ∀ sv : String, '\r' ∉ sv.toList → ∀ element,
      Xml.read Element.mk ns (ofCall .fnCall code sv).xml = some element ↔
        ∃ ts, Xml.Tokens (beforeCode .fnCall ++ (code.toList ++ afterCode ['C', 'A', 'L', 'L'] sv.toList)) ts ∧
          Xml.build Element.mk ns ts = some element := by
    intro sv hsv element
    rw [Xml.read_eq_some (notMem_xml (ofCall .fnCall code sv) hcode hsv), xml_ofCall]
  by_cases hread : ∃ sv : String, '\r' ∉ sv.toList ∧
      ∃ element, Xml.read Element.mk ns (ofCall .fnCall code sv).xml = some element
  · obtain ⟨sv₀, hsv₀, element₀, hread₀⟩ := hread
    obtain ⟨ts₀, hts₀, hbuilt₀⟩ := (hiff sv₀ hsv₀ element₀).mp hread₀
    obtain ⟨ts₁, s, hscan, hrun⟩ := exists_codeRun hts₀ hbuilt₀
    obtain ⟨ws₀, hchars₀, -, -, hvalue₀⟩ := (build_call_iff hscan hrun sv₀.toList element₀).mp ⟨ts₀, hts₀, hbuilt₀⟩
    rcases element_codeTokens ns ['C', 'A', 'L', 'L'] s with hnone | ⟨tag, text, cs, t, ht, hvalue⟩
    · rw [hnone ws₀ hchars₀] at hvalue₀
      cases hvalue₀
    · refine .inr ⟨tag, text, cs, t, ht, fun sv hsv element => ?_⟩
      rw [hiff sv hsv, build_call_iff hscan hrun]
      constructor
      · rintro ⟨ws, hchars, hflat, htokens, hbuilt⟩
        rw [hvalue ws hchars, hflat, content_eq] at hbuilt
        exact ⟨(exists_codeTokens (by decide) htokens).1, (Option.some.inj hbuilt).symm⟩
      · rintro ⟨hsvChars, rfl⟩
        have hname : Xml.IsName ['C', 'A', 'L', 'L'] := by decide
        obtain ⟨ws, hchars, hflat, htokens⟩ := tokens_afterCode hname hsvChars
        refine ⟨ws, hchars, hflat, htokens, ?_⟩
        rw [hvalue ws hchars, hflat, content_eq]
  · refine .inl fun sv hsv => ?_
    by_contra hne
    obtain ⟨element, helement⟩ := Option.ne_none_iff_exists'.mp hne
    exact hread ⟨sv, hsv, element, helement⟩

/-- A last child that is a `CALL` gives the text, and nothing else depends on it. -/
theorem parseEvent_last {tag t : String} {text x : Option String} {cs : List Element} {a : CallAttributes}
    (ht : t = "CALL" ∨ t.toList.head? = some '{')
    (h : ExecNode.parseEvent noResolver (some (.mk tag text (cs ++ [.mk t x []]))) = .ok (.call a)) :
    a.callText = some x ∧ ∀ y, ExecNode.parseEvent noResolver (some (.mk tag text (cs ++ [.mk t y []]))) =
      .ok (.call { a with callText := some y }) := by
  have hne : ∀ s : String, s.toList.head? ≠ some '{' → s ≠ "CALL" → t ≠ s := by
    rintro s hs hcall rfl
    exact ht.elim hcall hs
  have hkind : t ≠ "KIND" := hne _ (by decide) (by decide)
  have hcode : t ≠ "CODE" := hne _ (by decide) (by decide)
  cases cs with
  | nil =>
    have hbad : ExecNode.parseEvent noResolver (some (.mk tag text [.mk t x []])) = .error .assertionError :=
      if_pos hkind
    rw [List.nil_append, hbad] at h
    cases h
  | cons c cs =>
    have hcall : ∀ z, callEvent (.mk tag text (c :: cs ++ [.mk t z []])) noResolver =
        ((c :: cs).foldlM (callChild .call "CALL" noResolver) ⟨none, none⟩ >>= fun b =>
          callChild .call "CALL" noResolver b (.mk t z [])) >>= fun b => .ok (.call b) := by
      intro z
      rw [callEvent, Element.children, List.foldlM_append]
      simp
    -- only a call makes a call event
    obtain ⟨htag, htext, hevent⟩ : c.tag = "KIND" ∧ c.text = some EventKind.call.value ∧
        callEvent (.mk tag text (c :: cs ++ [.mk t x []])) noResolver = .ok (.call a) := by
      simp only [ExecNode.parseEvent, Element.children, List.cons_append] at h
      split_ifs at h with htag hcallKind
      · exact ⟨not_not.mp htag, hcallKind, h⟩
      · obtain ⟨b, -, hb⟩ := bind_eq_ok.mp h
        cases hb
      · obtain ⟨b, -, hb⟩ := bind_eq_ok.mp h
        cases hb
      · cases eop_of_eopEvent h
      · obtain ⟨b, -, hb⟩ := bind_eq_ok.mp h
        cases hb
    have hparse : ∀ z, ExecNode.parseEvent noResolver (some (.mk tag text (c :: cs ++ [.mk t z []]))) =
        callEvent (.mk tag text (c :: cs ++ [.mk t z []])) noResolver := fun z =>
      (if_neg (not_not.mpr htag)).trans (if_pos htext)
    rw [hcall] at hevent
    obtain ⟨b, hb, hbcall⟩ := bind_eq_ok.mp hevent
    cases hbcall
    obtain ⟨b, hfold, hlast⟩ := bind_eq_ok.mp hb
    by_cases hisCall : t = "CALL"
    · have hset : ∀ z, callChild .call "CALL" noResolver b (.mk t z []) = .ok { b with callText := some z } :=
        fun z => (if_neg hkind).trans (if_pos hisCall)
      rw [hset] at hlast
      cases hlast
      refine ⟨rfl, fun y => ?_⟩
      rw [hparse, hcall, hfold, ok_bind, hset]
      rfl
    · have hbad : callChild .call "CALL" noResolver b (.mk t x []) = .error .valueError :=
        (if_neg hkind).trans ((if_neg hisCall).trans (if_neg hcode))
      rw [hbad] at hlast
      cases hlast

/-! ### What makes a call -/

/-- The text before the first parenthesis. -/
def beforeParen (s : String) : String := String.ofList (s.toList.takeWhile (· != '('))

/-- The analyzer reads a call of this name in what is printed. -/
def ReadsCall (ns : Xml.Namespaces) (e : SymExecEvent) (name : String) : Prop :=
  ∃ element event a, Xml.read Element.mk ns e.xml = some element ∧
    ExecNode.parseEvent noResolver (some element) = .ok event ∧ isCall event = .ok (some a) ∧
      a.callName = .ok (some name)

/-- The location is read: without a text, the event of a call there is well-formed
and makes a call event. -/
def Located (ns : Xml.Namespaces) (code : String) : Prop :=
  ∃ element a, Xml.read Element.mk ns (ofCall .fnCall code "").xml = some element ∧
    ExecNode.parseEvent noResolver (some element) = .ok (.call a)

/-- A text with its line ends as they are read. -/
def asRead (s : String) : String := String.ofList (Xml.lineEnds s.toList)

/-- The text begins with the name and a parenthesis, the first one. -/
def Calls (text name : String) : Prop := '(' ∈ text.toList ∧ beforeParen text = name

theorem callName_iff (text name : String) (code : Option (Option String)) :
    (CallAttributes.mk (some (some text)) code).callName = .ok (some name) ↔ Calls text name := by
  have hname : (CallAttributes.mk (some (some text)) code).callName =
      .ok (if text.toList.contains '(' then some (beforeParen text) else none) := rfl
  rw [hname, Calls, List.contains_eq_mem]
  by_cases hparen : '(' ∈ text.toList <;> simp [hparen]

/-- A call event with this text is a call of the name that the text begins with. -/
theorem isCall_iff {a : CallAttributes} {sv : String} (ha : a.callText = some (xmlText sv)) (name : String) :
    (∃ b, isCall (.call a) = .ok (some b) ∧ b.callName = .ok (some name)) ↔ Calls sv name := by
  obtain ⟨callText, code⟩ := a
  obtain rfl : callText = some (xmlText sv) := ha
  by_cases hempty : sv = ""
  · -- an element without a text is no call
    subst hempty
    refine iff_of_false ?_ (by simp [Calls])
    rintro ⟨b, hb, -⟩
    cases hb
  · have htext : xmlText sv = some sv := if_neg hempty
    rw [htext, ← callName_iff sv name code]
    constructor
    · rintro ⟨b, hb, hname⟩
      cases hb
      exact hname
    · exact fun hname => ⟨_, rfl, hname⟩

theorem toList_asRead (s : String) : (asRead s).toList = Xml.lineEnds s.toList := String.toList_ofList

theorem notMem_asRead (s : String) : '\r' ∉ (asRead s).toList := by
  rw [toList_asRead]
  exact Xml.notMem_lineEnds _

theorem chars_asRead (s : String) : Chars (asRead s) ↔ Chars s := by
  rw [Chars, Chars, toList_asRead]
  exact Xml.forall_mem_lineEnds (by decide) (by decide) s.toList

/-- What is printed is read with its line ends as they are read. -/
theorem read_asRead (ns : Xml.Namespaces) (code sv : String) :
    Xml.read Element.mk ns (ofCall .fnCall code sv).xml =
      Xml.read Element.mk ns (ofCall .fnCall (asRead code) (asRead sv)).xml := by
  have hbefore : '\r' ∉ beforeCode .fnCall := by decide
  have hcode : '\r' ∉ ['<', '/', 'C', 'O', 'D', 'E', '>', '<', 'C', 'A', 'L', 'L', '>'] := by decide
  have hend : '\r' ∉ ['<', '/', 'C', 'A', 'L', 'L', '>', '<', '/', 'E', 'V', 'E', 'N', 'T', '>'] := by decide
  have hafter : ∀ cs, afterCode ['C', 'A', 'L', 'L'] cs =
      ['<', '/', 'C', 'O', 'D', 'E', '>', '<', 'C', 'A', 'L', 'L', '>'] ++ (Xml.escape cs ++
        ['<', '/', 'C', 'A', 'L', 'L', '>', '<', '/', 'E', 'V', 'E', 'N', 'T', '>']) := by simp [afterCode]
  have hlines : Xml.lineEnds (afterCode ['C', 'A', 'L', 'L'] sv.toList) =
      afterCode ['C', 'A', 'L', 'L'] (asRead sv).toList := by
    rw [hafter, hafter, Xml.lineEnds_append_of_notMem hcode, Xml.lineEnds_append (by decide), Xml.lineEnds_escape,
      Xml.lineEnds_eq hend, toList_asRead]
  refine Xml.read_congr ?_
  have hxml := notMem_xml (ofCall .fnCall (asRead code) (asRead sv)) (notMem_asRead code) (notMem_asRead sv)
  rw [Xml.lineEnds_eq hxml, xml_ofCall, xml_ofCall, Xml.lineEnds_append_of_notMem hbefore,
    Xml.lineEnds_append (by simp [afterCode]), hlines, toList_asRead code]

/-- **A call event is read** as a call of the name that its text begins with,
exactly if its location is read and the text is one of a document. -/
theorem readsCall_iff (ns : Xml.Namespaces) (code sv name : String) :
    ReadsCall ns (ofCall .fnCall code sv) name ↔ Located ns code ∧ Chars sv ∧ Calls (asRead sv) name := by
  rcases read_call ns (notMem_asRead code) with hnone | ⟨tag, text, cs, t, ht, hread⟩
  · refine iff_of_false ?_ ?_
    · rintro ⟨element, event, a, helement, -⟩
      rw [read_asRead, hnone _ (notMem_asRead sv)] at helement
      cases helement
    · rintro ⟨⟨element, a, helement, -⟩, -⟩
      rw [read_asRead, hnone _ (notMem_asRead "")] at helement
      cases helement
  · constructor
    · rintro ⟨element, event, b, helement, hevent, hb, hname⟩
      rw [read_asRead] at helement
      obtain ⟨hsv, rfl⟩ := (hread _ (notMem_asRead sv) element).mp helement
      obtain ⟨a, rfl⟩ : ∃ a, event = .call a := by
        cases event with
        | call a => exact ⟨a, rfl⟩
        | _ => cases hb
      obtain ⟨ha, hany⟩ := parseEvent_last ht hevent
      refine ⟨⟨_, _, ?_, hany (xmlText (asRead ""))⟩, (chars_asRead sv).mp hsv,
        (isCall_iff ha name).mp ⟨b, hb, hname⟩⟩
      rw [read_asRead]
      exact (hread _ (notMem_asRead "") _).mpr ⟨by decide, rfl⟩
    · rintro ⟨⟨element, a, helement, hevent⟩, hsv, hcalls⟩
      rw [read_asRead] at helement
      obtain ⟨-, rfl⟩ := (hread _ (notMem_asRead "") element).mp helement
      obtain ⟨-, hany⟩ := parseEvent_last ht hevent
      have hset : ({ a with callText := some (xmlText (asRead sv)) } : CallAttributes).callText =
          some (xmlText (asRead sv)) := rfl
      obtain ⟨b, hb, hname⟩ := (isCall_iff hset name).mpr hcalls
      refine ⟨_, _, b, ?_, hany (xmlText (asRead sv)), hb, hname⟩
      rw [read_asRead]
      exact (hread _ (notMem_asRead sv) _).mpr ⟨(chars_asRead sv).mpr hsv, rfl⟩

/-- A location with nothing to escape is read. -/
theorem located_of_plain (ns : Xml.Namespaces) {code : String} (hlegal : Legal code) (h : Xml.Plain code.toList) :
    Located ns code :=
  have hsv : Legal "" := by decide
  ⟨_, _, read_xml ns (ofCall .fnCall code "") hlegal hsv fun _ => h, parseEvent_element _⟩

end Apisan
