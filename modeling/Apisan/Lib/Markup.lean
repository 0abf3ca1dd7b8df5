/-
# Documents written part by part

A document is written as a row of parts: start tags, end tags, leaves, and line
ends between them. Reading a part changes the elements that are open
(`Part.read`), and the text of a row of parts is read as the parts are, one after
the other (`scan_parts`). So a document is read back as the element that its
parts make (`build_parts`).

Key definitions: `Xml.Part`, `Xml.Part.read`, `Xml.partsText`.
Key theorems: `Xml.scan_part`, `Xml.scan_parts`, `Xml.build_parts`.
-/
import Apisan.Lib.Xml

namespace Xml

/-- A part of a document. -/
inductive Part
  | start (name : List Char)
  | stop (name : List Char)
  | leaf (l : Leaf)
  | newline

namespace Part

def text : Part → List Char
  | start n => '<' :: (n ++ ['>'])
  | stop n => '<' :: '/' :: (n ++ ['>'])
  | leaf l => l.text
  | newline => ['\n']

/-- The names of tags are names without a prefix. -/
def Proper : Part → Prop
  | start n => IsName n ∧ ':' ∉ n
  | stop n => IsName n ∧ ':' ∉ n
  | leaf _ => True
  | newline => True

end Part

/-- The text of parts in a row. -/
def partsText (ps : List Part) : List Char := ps.flatMap Part.text

theorem partsText_append (ps qs : List Part) : partsText (ps ++ qs) = partsText ps ++ partsText qs :=
  List.flatMap_append

section

variable {E : Type} {mk : String → Option String → List E → E} {ns : Namespaces}

/-- An element without attributes that was just opened. -/
def Frame.opened (E : Type) (n : List Char) : Frame E := ⟨n, String.ofList n, [], [], []⟩

/-- What a part makes of the open elements, within a document. -/
def Part.read (mk : String → Option String → List E → E) (stack : List (Frame E)) : Part → Option (List (Frame E))
  | start n => some (Frame.opened E n :: stack)
  | stop n =>
    match stack with
    | f :: g :: fs => if f.name = n then some ({ g with children := f.element mk :: g.children } :: fs) else none
    | _ => none
  | leaf l =>
    match stack with
    | f :: fs => some ({ f with children := l.element mk :: f.children } :: fs)
    | [] => none
  | newline =>
    match stack with
    | f :: fs => some (f.add ['\n'] :: fs)
    | [] => none

theorem unscoped_cons {f : Frame E} {fs : List (Frame E)} :
    Unscoped (f :: fs) ↔ f.attributes = [] ∧ Unscoped fs := List.forall_mem_cons

theorem Frame.add_attributes (f : Frame E) (cs : List Char) : (f.add cs).attributes = f.attributes := by
  unfold Frame.add
  split_ifs <;> rfl

theorem token_newline (rest : List Char) : token ('\n' :: rest) = some (.text '\n', rest) := by
  have hchar : isChar '\n' = true := by decide
  have hprefix : ('\n' :: rest).dropPrefix? [']', ']', '>'] = none := rfl
  rw [token, if_neg (by decide), if_neg (by decide), if_pos ⟨hchar, hprefix⟩]

/-- **Reading a part.** Its text is read as the part is, and what follows is left. -/
theorem scan_part {p : Part} (hp : p.Proper) {stack stack' : List (Frame E)} (hne : stack ≠ [])
    (hs : Unscoped stack) (h : p.read mk stack = some stack') (rest : List Char) :
    (∃ ts, Scan (p.text ++ rest) ts rest ∧ ts.foldlM (step mk ns) ⟨stack, none⟩ = some ⟨stack', none⟩) ∧
      stack' ≠ [] ∧ Unscoped stack' := by
  obtain ⟨f, fs, rfl⟩ := List.exists_cons_of_ne_nil hne
  cases p with
  | start n =>
    obtain rfl := Option.some.inj h
    refine ⟨⟨[.openTag n []], ?_, ?_⟩, List.cons_ne_nil _ _, unscoped_cons.mpr ⟨rfl, hs⟩⟩
    · have htext : Part.text (.start n) ++ rest = '<' :: (n ++ '>' :: rest) := by simp [Part.text]
      rw [htext]
      exact scan_openTag hp.1 rest
    · have hpush : State.push ns ⟨f :: fs, none⟩ n [] = some (Frame.opened E n) := push_unscoped hs (.inr rfl) hp.2
      simp [step, hpush]
  | stop n =>
    cases fs with
    | nil => cases h
    | cons g fs =>
      have hread : (if f.name = n then some ({ g with children := f.element mk :: g.children } :: fs) else none) =
          some stack' := h
      split_ifs at hread with hname
      obtain rfl := Option.some.inj hread
      have hg := (unscoped_cons.mp hs).2
      refine ⟨⟨[.closeTag n], ?_, ?_⟩, List.cons_ne_nil _ _,
        unscoped_cons.mpr ⟨(unscoped_cons.mp hg).1, (unscoped_cons.mp hg).2⟩⟩
      · have htext : Part.text (.stop n) ++ rest = '<' :: '/' :: (n ++ '>' :: rest) := by simp [Part.text]
        rw [htext]
        exact scan_closeTag hp.1 rest
      · simp [step, hname, State.close]
  | leaf l =>
    obtain rfl := Option.some.inj h
    exact ⟨scan_leaf l hs rest, List.cons_ne_nil _ _,
      unscoped_cons.mpr ⟨(unscoped_cons.mp hs).1, (unscoped_cons.mp hs).2⟩⟩
  | newline =>
    obtain rfl := Option.some.inj h
    refine ⟨⟨[.text '\n'], .single (token_newline rest), rfl⟩, List.cons_ne_nil _ _, ?_⟩
    exact unscoped_cons.mpr ⟨(f.add_attributes _).trans (unscoped_cons.mp hs).1, (unscoped_cons.mp hs).2⟩

/-- **Reading parts** in a row. -/
theorem scan_parts {ps : List Part} (hps : ∀ p ∈ ps, p.Proper) {stack stack' : List (Frame E)} (hne : stack ≠ [])
    (hs : Unscoped stack) (h : ps.foldlM (Part.read mk) stack = some stack') (rest : List Char) :
    ∃ ts, Scan (partsText ps ++ rest) ts rest ∧ ts.foldlM (step mk ns) ⟨stack, none⟩ = some ⟨stack', none⟩ := by
  induction ps generalizing stack with
  | nil =>
    obtain rfl := Option.some.inj h
    exact ⟨[], .nil rest, rfl⟩
  | cons p ps ih =>
    rw [List.forall_mem_cons] at hps
    rw [List.foldlM_cons] at h
    obtain ⟨mid, hmid, hrest⟩ := Option.bind_eq_some_iff.mp h
    obtain ⟨⟨ts, hscan, hfold⟩, hne', hs'⟩ : (∃ ts, Scan (p.text ++ (partsText ps ++ rest)) ts
        (partsText ps ++ rest) ∧ ts.foldlM (step mk ns) ⟨stack, none⟩ = some ⟨mid, none⟩) ∧ mid ≠ [] ∧
          Unscoped mid := scan_part hps.1 hne hs hmid _
    obtain ⟨us, hscan', hfold'⟩ := ih hps.2 hne' hs' hrest
    refine ⟨ts ++ us, ?_, ?_⟩
    · have htext : partsText (p :: ps) ++ rest = p.text ++ (partsText ps ++ rest) := by simp [partsText]
      rw [htext]
      exact hscan.append hscan'
    · rw [List.foldlM_append, hfold]
      exact hfold'

/-- Line ends after a document are ignored. -/
theorem scan_newlines (s : State E) (hs : s.stack = []) : ∀ k : ℕ, ∃ ts, Tokens (List.replicate k '\n') ts ∧
    ts.foldlM (step mk ns) s = some s
  | 0 => ⟨[], .nil _, rfl⟩
  | k + 1 => by
    obtain ⟨ts, hscan, hfold⟩ := scan_newlines s hs k
    refine ⟨.text '\n' :: ts, .cons (token_newline _) hscan, ?_⟩
    have hstep : step mk ns s (.text '\n') = some s := by
      rw [step, hs]
      exact if_pos (by decide)
    rw [List.foldlM_cons, hstep]
    exact hfold

/-- **A document is read back** as the element that its parts make, with line ends
after it. -/
theorem build_parts {n : List Char} (hn : IsName n) (hcolon : ':' ∉ n) {ps : List Part} (hps : ∀ p ∈ ps, p.Proper)
    {f : Frame E} (hname : f.name = n) (h : ps.foldlM (Part.read mk) [Frame.opened E n] = some [f]) (k : ℕ) :
    ∃ ts, Tokens (partsText (.start n :: (ps ++ [.stop n])) ++ List.replicate k '\n') ts ∧
      build mk ns ts = some (f.element mk) := by
  have hs : Unscoped [Frame.opened E n] := unscoped_cons.mpr ⟨rfl, fun f hf => (List.not_mem_nil hf).elim⟩
  obtain ⟨ts, hscan, hfold⟩ : ∃ ts, Scan (partsText ps ++ '<' :: '/' :: (n ++ '>' :: List.replicate k '\n')) ts
      ('<' :: '/' :: (n ++ '>' :: List.replicate k '\n')) ∧
        ts.foldlM (step mk ns) ⟨[Frame.opened E n], none⟩ = some ⟨[f], none⟩ :=
    scan_parts hps (List.cons_ne_nil _ _) hs h _
  obtain ⟨us, hend, hends⟩ : ∃ us, Tokens (List.replicate k '\n') us ∧
      us.foldlM (step mk ns) ⟨[], some (f.element mk)⟩ = some ⟨[], some (f.element mk)⟩ :=
    scan_newlines _ rfl k
  refine ⟨[.openTag n []] ++ (ts ++ ([.closeTag n] ++ us)), ?_, ?_⟩
  · have htext : partsText (.start n :: (ps ++ [.stop n])) ++ List.replicate k '\n' =
        '<' :: (n ++ '>' :: (partsText ps ++ '<' :: '/' :: (n ++ '>' :: List.replicate k '\n'))) := by
      simp [partsText, Part.text]
    rw [htext]
    exact (scan_openTag hn _).append (hscan.append ((scan_closeTag hn _).append hend))
  · have hpush : State.push ns (⟨[], none⟩ : State E) n [] = some (Frame.opened E n) :=
      push_unscoped (fun g hg => (List.not_mem_nil hg).elim) (.inr rfl) hcolon
    have hopen : step mk ns (⟨[], none⟩ : State E) (.openTag n []) = some ⟨[Frame.opened E n], none⟩ := by
      simp [step, hpush]
    have hclose : step mk ns ⟨[f], none⟩ (.closeTag n) = some ⟨[], some (f.element mk)⟩ := by
      simp [step, hname, State.close]
    have hrun : ([Token.openTag n []] ++ (ts ++ ([Token.closeTag n] ++ us))).foldlM (step mk ns) ⟨[], none⟩ =
        some ⟨[], some (f.element mk)⟩ := by
      rw [List.singleton_append, List.foldlM_cons, hopen]
      show (ts ++ ([Token.closeTag n] ++ us)).foldlM (step mk ns) _ = _
      rw [List.foldlM_append, hfold]
      show ([Token.closeTag n] ++ us).foldlM (step mk ns) _ = _
      rw [List.singleton_append, List.foldlM_cons, hclose]
      exact hends
    rw [build, hrun]
    rfl

end

end Xml
