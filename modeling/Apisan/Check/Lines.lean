/-
# The line a report points at

A location `orig:fname:lineno` is printed as a line of `orig`, a preprocessed
file whose line markers say which line of which file comes next. The presumed
location of a line is a matter of the lines before it (`Presumed`), and
`print_line` prints the first line that is presumed to be where the location
says, with its own number (`printLine_first`).

Key definitions: `Marker`, `Presumed`, `PresumedAt`, `Location`.
Key theorems: `lineMark_eq_some_iff`, `Presumed.unique`, `findLine_eq_some_iff`,
`locationParts_eq_some_iff`, `printLine_first`.
-/
import Apisan.Check.Printing
import Apisan.Parse.Spelling

namespace Apisan

open Python

/-! ### Line markers -/

/-- The line marker `# n "name"`, with anything after it. -/
def Marker (line name : String) (n : ℤ) : Prop :=
  ∃ digits rest : List Char, digits ≠ [] ∧ digits.all Char.isDigit = true ∧ name.toList ≠ [] ∧
    '"' ∉ name.toList ∧ n = Nat.ofDigitChars 10 digits 0 ∧
    line.toList = '#' :: ' ' :: digits ++ ' ' :: '"' :: name.toList ++ '"' :: rest

/-- A line that is no line marker. -/
def Ordinary (line : String) : Prop := ∀ name n, ¬Marker line name n

theorem lineMark_of_marker {line name : String} {n : ℤ} (h : Marker line name n) :
    lineMark line = some (n, name) := by
  obtain ⟨digits, rest, hne, hdigits, hname, hquote, rfl, hline⟩ := h
  have hnum := SLexer.takeWhile_append_stop hdigits
    (show ∀ c ∈ (' ' :: '"' :: (name.toList ++ '"' :: rest)).head?, Char.isDigit c = false by simp)
  have hstr := SLexer.takeWhile_ne_cons hquote rest
  unfold lineMark
  simp only [List.cons_append, List.append_assoc] at hline
  simp [hline, hnum.1, hnum.2, hstr.1, hstr.2, hne, hname]

theorem marker_of_lineMark {line name : String} {n : ℤ} (h : lineMark line = some (n, name)) :
    Marker line name n := by
  unfold lineMark at h
  split at h
  · rename_i chars hline
    simp only at h
    split at h
    · rename_i rest hdrop
      split_ifs at h with hparts
      obtain ⟨hdigits, hname, hquote⟩ := hparts
      simp only [Option.some.injEq, Prod.mk.injEq] at h
      obtain ⟨rfl, rfl⟩ := h
      obtain ⟨tail, hrest⟩ := SLexer.takeWhile_ne_append hquote
      refine ⟨chars.takeWhile Char.isDigit, tail, hdigits, List.all_takeWhile, by simpa using hname, ?_, rfl, ?_⟩
      · rw [String.toList_ofList]
        exact SLexer.notMem_takeWhile_ne _ _
      · have hchars : chars = chars.takeWhile Char.isDigit ++ ' ' :: '"' :: rest := by
          rw [← hdrop, List.takeWhile_append_dropWhile]
        rw [hline, String.toList_ofList]
        simp only [List.cons_append, List.append_assoc]
        rw [← hrest, ← hchars]
    · cases h
  · cases h

/-- **A line matches exactly when it is a line marker.** -/
theorem lineMark_eq_some_iff {line name : String} {n : ℤ} :
    lineMark line = some (n, name) ↔ Marker line name n :=
  ⟨marker_of_lineMark, lineMark_of_marker⟩

theorem ordinary_iff {line : String} : Ordinary line ↔ lineMark line = none := by
  unfold Ordinary
  simp only [← lineMark_eq_some_iff]
  constructor
  · intro h
    exact Option.eq_none_iff_forall_ne_some.mpr fun p => h p.2 p.1
  · intro h name n hmark
    rw [h] at hmark
    cases hmark

/-! ### Presumed locations -/

/-- `Presumed start before name n`: after the lines `before`, what comes next
is presumed to be line `n` of the file `name`. -/
inductive Presumed (start : String) : List String → String → ℤ → Prop
  | start : Presumed start [] start 1
  | marker {before line name name' n n'} : Presumed start before name n → Marker line name' n' →
      Presumed start (before ++ [line]) name' n'
  | ordinary {before line name n} : Presumed start before name n → Ordinary line →
      Presumed start (before ++ [line]) name (n + 1)

/-- Line `i` of a file, counted from zero, is the ordinary line `text`, and is
presumed to be line `n` of the file `name`. -/
structure PresumedAt (start : String) (lines : List String) (i : ℕ) (text name : String) (n : ℤ) : Prop where
  line_eq : lines[i]? = some text
  ordinary : Ordinary text
  presumed : Presumed start (lines.take i) name n

variable {start : String}

theorem presumed_nil {name : String} {n : ℤ} : Presumed start [] name n ↔ name = start ∧ n = 1 := by
  constructor
  · intro h
    generalize hlines : ([] : List String) = lines at h
    cases h with
    | start => exact ⟨rfl, rfl⟩
    | marker => simp at hlines
    | ordinary => simp at hlines
  · rintro ⟨rfl, rfl⟩
    exact .start

/-- What a line makes of the location presumed before it. -/
theorem presumed_concat {before : List String} {line name : String} {n : ℤ} :
    Presumed start (before ++ [line]) name n ↔ ∃ name' n', Presumed start before name' n' ∧
      (Marker line name n ∨ Ordinary line ∧ name = name' ∧ n = n' + 1) := by
  constructor
  · intro h
    generalize hlines : before ++ [line] = lines at h
    cases h with
    | start => simp at hlines
    | marker hpre hmark =>
      obtain ⟨rfl, hline⟩ := List.append_inj' hlines rfl
      cases hline
      exact ⟨_, _, hpre, .inl hmark⟩
    | ordinary hpre hord =>
      obtain ⟨rfl, hline⟩ := List.append_inj' hlines rfl
      cases hline
      exact ⟨_, _, hpre, .inr ⟨hord, rfl, rfl⟩⟩
  · rintro ⟨_, _, hpre, hmark | ⟨hord, rfl, rfl⟩⟩
    · exact hpre.marker hmark
    · exact hpre.ordinary hord

theorem Presumed.unique {before : List String} {name name' : String} {n n' : ℤ}
    (h : Presumed start before name n) (h' : Presumed start before name' n') : name = name' ∧ n = n' := by
  induction before using List.reverseRecOn generalizing name name' n n' with
  | nil =>
    rw [presumed_nil] at h h'
    exact ⟨h.1.trans h'.1.symm, h.2.trans h'.2.symm⟩
  | append_singleton before line ih =>
    obtain ⟨_, _, hpre, hline⟩ := presumed_concat.mp h
    obtain ⟨_, _, hpre', hline'⟩ := presumed_concat.mp h'
    rcases hline with hmark | ⟨hord, rfl, rfl⟩
    · rcases hline' with hmark' | ⟨hord', -, -⟩
      · have hsame := (lineMark_eq_some_iff.mpr hmark).symm.trans (lineMark_eq_some_iff.mpr hmark')
        simpa [and_comm] using hsame
      · exact absurd hmark (hord' _ _)
    · rcases hline' with hmark' | ⟨-, rfl, rfl⟩
      · exact absurd hmark' (hord _ _)
      · obtain ⟨rfl, rfl⟩ := ih hpre hpre'
        exact ⟨rfl, rfl⟩

/-- The line after `before` is where it is presumed to be, and nowhere else. -/
theorem presumedAt_next {before rest : List String} {line text name name' : String} {n n' : ℤ}
    (h : Presumed start before name n) :
    PresumedAt start (before ++ line :: rest) before.length text name' n' ↔
      line = text ∧ Ordinary text ∧ name = name' ∧ n = n' := by
  constructor
  · rintro ⟨htext, hord, hpre⟩
    rw [List.getElem?_append_right le_rfl] at htext
    rw [List.take_left] at hpre
    exact ⟨by simpa using htext, hord, h.unique hpre⟩
  · rintro ⟨rfl, hord, rfl, rfl⟩
    exact ⟨by simp, hord, by rwa [List.take_left]⟩

/-- What `print_line` makes of line `i`. -/
def lineText (origFname : String) (i : ℕ) (text : String) : String :=
  origFname ++ ":" ++ toString (i + 1) ++ ": " ++ text

/-! ### The scan -/

/-- Line `i` is the first from line `k` on that is presumed to be line `n` of
the file `name`. -/
structure FirstFrom (start : String) (lines : List String) (k i : ℕ) (text name : String) (n : ℤ) : Prop where
  le : k ≤ i
  presumedAt : PresumedAt start lines i text name n
  first : ∀ j, k ≤ j → j < i → ∀ text', ¬PresumedAt start lines j text' name n

section Scan
variable {lines : List String} {i k : ℕ} {text name : String} {n : ℤ}

theorem PresumedAt.lt_length (h : PresumedAt start lines i text name n) : i < lines.length :=
  (List.getElem?_eq_some_iff.mp h.line_eq).1

theorem firstFrom_skip (h : ∀ text', ¬PresumedAt start lines k text' name n) :
    FirstFrom start lines k i text name n ↔ FirstFrom start lines (k + 1) i text name n := by
  constructor
  · rintro ⟨hle, hat, hfirst⟩
    have hne : k ≠ i := by
      rintro rfl
      exact h text hat
    exact ⟨by omega, hat, fun j hj => hfirst j (by omega)⟩
  · rintro ⟨hle, hat, hfirst⟩
    refine ⟨by omega, hat, fun j hj hlt => ?_⟩
    by_cases hjk : j = k
    · rw [hjk]
      exact h
    · exact hfirst j (by omega) hlt

theorem firstFrom_hit (h : PresumedAt start lines k text name n) {text' : String} :
    FirstFrom start lines k i text' name n ↔ i = k ∧ text' = text := by
  constructor
  · rintro ⟨hle, hat, hfirst⟩
    have hik : i = k := by
      by_contra hne
      exact hfirst k le_rfl (by omega) text h
    subst hik
    exact ⟨rfl, Option.some.inj (hat.line_eq.symm.trans h.line_eq)⟩
  · rintro ⟨rfl, rfl⟩
    exact ⟨le_rfl, h, fun j hj hlt => absurd hj (by omega)⟩

end Scan

/-- **The scan finds the first line presumed to be there**, with its number. -/
theorem findLine_eq_some_iff (origFname fname : String) (lineno : ℤ) : ∀ (rest before : List String)
    {currFname : String} {currLine : ℤ}, Presumed start before currFname currLine → ∀ {out : String},
    findLine origFname fname lineno rest ((before.length : ℤ) + 1) currLine currFname = some out ↔
      ∃ i text, FirstFrom start (before ++ rest) before.length i text fname lineno ∧
        out = lineText origFname i text
  | [], before, _, _, _, out => by
    refine iff_of_false (fun h => by cases h) ?_
    rintro ⟨i, text, hfirst, -⟩
    have hlt := hfirst.presumedAt.lt_length
    have hle := hfirst.le
    rw [List.append_nil] at hlt
    omega
  | line :: rest, before, currFname, currLine, hpre, out => by
    have hcount : ((before.length : ℤ) + 1 + 1) = ((before ++ [line]).length : ℤ) + 1 := by simp
    have hlength : before.length + 1 = (before ++ [line]).length := by simp
    have hlines : before ++ line :: rest = before ++ [line] ++ rest := by simp
    have hnext : ∀ {text : String}, PresumedAt start (before ++ line :: rest) before.length text fname lineno ↔
        line = text ∧ Ordinary text ∧ currFname = fname ∧ currLine = lineno := presumedAt_next hpre
    rw [findLine]
    cases hmark : lineMark line with
    | some mark =>
      -- the line is no candidate, and says where the next one is
      have hmarker := lineMark_eq_some_iff.mp hmark
      have hnone : ∀ text, ¬PresumedAt start (before ++ line :: rest) before.length text fname lineno := by
        rintro text hat
        obtain ⟨rfl, hord, -⟩ := hnext.mp hat
        exact hord _ _ hmarker
      simp only [firstFrom_skip hnone]
      rw [hcount, hlength, hlines]
      exact findLine_eq_some_iff origFname fname lineno rest (before ++ [line]) (hpre.marker hmarker)
    | none =>
      have hord := ordinary_iff.mpr hmark
      by_cases hhere : currFname = fname ∧ lineno = currLine
      · have hat := hnext.mpr ⟨rfl, hord, hhere.1, hhere.2.symm⟩
        simp only [if_pos hhere, firstFrom_hit hat]
        constructor
        · rintro ⟨⟩
          exact ⟨before.length, line, ⟨rfl, rfl⟩, rfl⟩
        · rintro ⟨i, text, ⟨rfl, rfl⟩, rfl⟩
          rfl
      · have hnone : ∀ text, ¬PresumedAt start (before ++ line :: rest) before.length text fname lineno := by
          intro text hat
          obtain ⟨-, -, hname, hline⟩ := hnext.mp hat
          exact hhere ⟨hname, hline.symm⟩
        simp only [if_neg hhere, firstFrom_skip hnone]
        rw [hcount, hlength, hlines]
        exact findLine_eq_some_iff origFname fname lineno rest (before ++ [line]) (hpre.ordinary hord)

theorem TextFile.line_eq_some_iff {file : TextFile} {origFname fname : String} {lineno : ℤ} {out : String} :
    file.line origFname fname lineno = some out ↔
      ∃ i text, FirstFrom (basename origFname) file.lines 0 i text fname lineno ∧
        out = lineText origFname i text :=
  findLine_eq_some_iff origFname fname lineno file.lines [] .start

/-! ### Locations -/

/-- The location `orig:fname:lineno`, of a line number in any spelling `int`
takes. -/
def Location (encFilename origFname fname : String) (lineno : ℤ) : Prop :=
  ∃ text, intText text = .ok lineno ∧ ':' ∉ origFname.toList ∧ ':' ∉ fname.toList ∧ ':' ∉ text.toList ∧
    encFilename = origFname ++ ":" ++ fname ++ ":" ++ text

theorem split_colon_iff {encFilename origFname fname text : String} :
    split ':' encFilename = [origFname, fname, text] ↔
      ':' ∉ origFname.toList ∧ ':' ∉ fname.toList ∧ ':' ∉ text.toList ∧
        encFilename = origFname ++ ":" ++ fname ++ ":" ++ text := by
  rw [split_eq_iff (List.cons_ne_nil _ _), ← String.toList_inj]
  simp only [List.forall_mem_cons, List.not_mem_nil, false_implies, implies_true, and_true, and_assoc]
  simp [List.intercalate]

/-- **A location is read exactly where the text is one.** -/
theorem locationParts_eq_some_iff {encFilename origFname fname : String} {lineno : ℤ} :
    locationParts encFilename = some (origFname, fname, lineno) ↔
      Location encFilename origFname fname lineno := by
  unfold locationParts Location
  constructor
  · intro h
    split at h
    · rename_i orig name text hsplit
      cases hint : intText text with
      | error e =>
        rw [hint] at h
        cases h
      | ok n =>
        rw [hint] at h
        cases h
        exact ⟨text, hint, split_colon_iff.mp hsplit⟩
    · cases h
  · rintro ⟨text, hint, hcolons⟩
    rw [split_colon_iff.mpr hcolons]
    simp [hint, Except.toOption]

/-- **A report points at the right line.** Where the file is read to its end,
the line printed is the first presumed to be at the location. -/
theorem printLine_first {fs : FileSystem} {encFilename origFname fname : String} {lineno : ℤ}
    {lines : List String} (hloc : Location encFilename origFname fname lineno)
    (hexists : fs.pathExists origFname = true) (hopen : fs.openText origFname = .ok ⟨lines, none⟩) :
    ((∀ i text, ¬PresumedAt (basename origFname) lines i text fname lineno) →
      printLine fs (some encFilename) = .ok none) ∧
    ∀ i text, PresumedAt (basename origFname) lines i text fname lineno →
      (∀ j < i, ∀ text', ¬PresumedAt (basename origFname) lines j text' fname lineno) →
      printLine fs (some encFilename) =
        .ok (some (origFname ++ ":" ++ toString (i + 1) ++ ": " ++ text)) := by
  have hprint : printLine fs (some encFilename) =
      .ok ((TextFile.mk lines none).line origFname fname lineno) := by
    simp only [printLine, locationParts_eq_some_iff.mpr hloc, hexists, hopen, if_true, ok_bind]
    split
    · rename_i line _ hline
      rw [hline]
    · rename_i hline _
      rw [hline]
    · rename_i hfailure
      cases hfailure
  rw [hprint]
  constructor
  · intro hnone
    refine congrArg _ (Option.eq_none_iff_forall_ne_some.mpr fun out hout => ?_)
    obtain ⟨i, text, hfirst, -⟩ := TextFile.line_eq_some_iff.mp hout
    exact hnone i text hfirst.presumedAt
  · intro i text hat hfirst
    exact congrArg _ (TextFile.line_eq_some_iff.mpr
      ⟨i, text, ⟨Nat.zero_le i, hat, fun j _ hlt => hfirst j hlt⟩, rfl⟩)

/-- A text that marks a line twice over, and two lines alike. -/
def markedTwice : List String :=
  ["# 1 \"a.h\"\n", "# 3 \"m.c\" 2\n", "int x;\n", "f();\n", "# 4 \"m.c\"\n", "g();\n"]

/-- Such a file, alone. -/
def includedTwice : FileSystem where
  pathExists path := path = "m.i"
  openText path := if path = "m.i" then .ok ⟨markedTwice, none⟩ else .error .fileNotFoundError

theorem markedTwice_presumed : Presumed "m.i" (markedTwice.take 2) "m.c" 3 :=
  have hfirst : Presumed "m.i" ([] ++ ["# 1 \"a.h\"\n"]) "a.h" 1 := .marker .start (marker_of_lineMark (by rfl))
  hfirst.marker (marker_of_lineMark (by rfl))

theorem includedTwice_prints :
    printLine includedTwice (some "m.i:m.c:4") = .ok (some "m.i:4: f();\n") := by
  have hloc : Location "m.i:m.c:4" "m.i" "m.c" 4 :=
    ⟨"4", by decide, by decide, by decide, by decide, by decide⟩
  have hat : PresumedAt (basename "m.i") markedTwice 3 "f();\n" "m.c" 4 :=
    ⟨rfl, ordinary_iff.mpr (by decide),
      markedTwice_presumed.ordinary (show Ordinary "int x;\n" from ordinary_iff.mpr (by decide))⟩
  have hfirst : ∀ j < 3, ∀ text, ¬PresumedAt (basename "m.i") markedTwice j text "m.c" 4 := by
    intro j hj text h
    match j, hj with
    | 0, _ =>
      cases h.line_eq
      exact absurd (ordinary_iff.mp h.ordinary) (by decide)
    | 1, _ =>
      cases h.line_eq
      exact absurd (ordinary_iff.mp h.ordinary) (by decide)
    | 2, _ => cases (markedTwice_presumed.unique h.presumed).2
  exact (printLine_first hloc rfl rfl).2 3 "f();\n" hat hfirst

end Apisan
