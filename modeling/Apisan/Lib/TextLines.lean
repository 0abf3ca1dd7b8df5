/-
# The lines of a text

A text file is read line by line, each line with the newline that ends it, after
the other line ends were replaced by newlines. A newline is where a text can be
cut: the lines of the parts are the lines of the whole (`lines_append`,
`textLines_append`). A line begins where the text does or after a newline
(`head_ne_of_mem_lines`).

Key definitions: `TextLines.lines`, `TextLines.textLines`.
Key theorems: `TextLines.lines_append`, `TextLines.textLines_append`,
`TextLines.head_ne_of_mem_lines`.
-/
import Apisan.Lib.Xml

namespace TextLines

/-- The lines of a text, each with its newline. -/
def lines : List Char → List (List Char)
  | [] => []
  | c :: cs =>
    if c = '\n' then [c] :: lines cs
    else (c :: (lines cs).headD []) :: (lines cs).tail

theorem lines_newline (cs : List Char) : lines ('\n' :: cs) = ['\n'] :: lines cs := by
  rw [lines, if_pos rfl]

theorem lines_cons {c : Char} (hc : c ≠ '\n') (cs : List Char) :
    lines (c :: cs) = (c :: (lines cs).headD []) :: (lines cs).tail := by
  rw [lines, if_neg hc]

theorem flatten_lines : ∀ cs : List Char, (lines cs).flatten = cs
  | [] => rfl
  | c :: cs => by
    have ih := flatten_lines cs
    by_cases hc : c = '\n'
    · rw [hc, lines_newline, List.flatten_cons, ih]
      rfl
    · rw [lines_cons hc, List.flatten_cons, List.cons_append]
      congr 1
      conv_rhs => rw [← ih]
      cases lines cs <;> rfl

/-- **A text may be cut after a newline.** -/
theorem lines_append (bs : List Char) : ∀ as : List Char,
    lines (as ++ '\n' :: bs) = lines (as ++ ['\n']) ++ lines bs
  | [] => by
    rw [List.nil_append, List.nil_append, lines_newline, lines_newline]
    rfl
  | c :: as => by
    have ih := lines_append bs as
    rw [List.cons_append, List.cons_append]
    by_cases hc : c = '\n'
    · rw [hc, lines_newline, lines_newline, ih]
      rfl
    · have hne : lines (as ++ ['\n']) ≠ [] := fun hnil => by
        have hflat := flatten_lines (as ++ ['\n'])
        rw [hnil] at hflat
        exact absurd hflat.symm (by simp)
      rw [lines_cons hc, lines_cons hc, ih]
      cases h : lines (as ++ ['\n']) with
      | nil => exact absurd h hne
      | cons l ls => rfl

/-- `x` does not stand after a newline. -/
def NotAfterNewline (x c d : Char) : Prop := c = '\n' → d ≠ x

instance (x c d : Char) : Decidable (NotAfterNewline x c d) := inferInstanceAs (Decidable (c = '\n' → d ≠ x))

/-- The first line begins as the text does. -/
theorem head_lines (cs : List Char) : ∀ l ∈ (lines cs).head?, l.head? = cs.head? := by
  intro l hl
  cases cs with
  | nil => cases hl
  | cons c cs =>
    by_cases hc : c = '\n'
    · rw [hc, lines_newline] at hl
      cases hl
      rw [hc]
      rfl
    · rw [lines_cons hc] at hl
      cases hl
      rfl

theorem tail_lines {x : Char} : ∀ {cs : List Char}, cs.IsChain (NotAfterNewline x) →
    ∀ l ∈ (lines cs).tail, l.head? ≠ some x
  | [], _, l, hl => (List.not_mem_nil hl).elim
  | c :: cs, h, l, hl => by
    have ih : ∀ l ∈ (lines cs).tail, l.head? ≠ some x := tail_lines h.tail
    by_cases hc : c = '\n'
    · rw [hc, lines_newline, List.tail_cons] at hl
      have hfirst := head_lines cs
      cases hlines : lines cs with
      | nil =>
        rw [hlines] at hl
        cases hl
      | cons l' ls =>
        rw [hlines] at hl hfirst ih
        rcases List.mem_cons.mp hl with rfl | hl
        · rw [hfirst l rfl]
          cases cs with
          | nil => exact fun h => nomatch h
          | cons d cs =>
            rw [List.isChain_cons_cons] at h
            exact fun hd => h.1 hc (Option.some.inj hd)
        · exact ih l hl
    · rw [lines_cons hc, List.tail_cons] at hl
      exact ih l hl

/-- **Where a line begins**: where the text does, or after a newline. -/
theorem head_ne_of_mem_lines {x : Char} {cs : List Char} (h : cs.IsChain (NotAfterNewline x))
    (hx : cs.head? ≠ some x) : ∀ l ∈ lines cs, l.head? ≠ some x := by
  intro l hl
  have hfirst := head_lines cs
  have hrest := tail_lines h
  cases hlines : lines cs with
  | nil =>
    rw [hlines] at hl
    cases hl
  | cons l' ls =>
    rw [hlines] at hl hfirst hrest
    rcases List.mem_cons.mp hl with rfl | hl
    · rw [hfirst l rfl]
      exact hx
    · exact hrest l hl

/-! ### Texts in a row -/

theorem isChain_of_notMem {x : Char} {cs : List Char} (h : x ∉ cs) : cs.IsChain (NotAfterNewline x) :=
  List.Pairwise.isChain (List.pairwise_of_forall_mem_list fun _ _ _ hd _ heq => h (heq ▸ hd))

theorem isChain_append {x : Char} {as bs : List Char} (ha : as.IsChain (NotAfterNewline x))
    (hb : bs.IsChain (NotAfterNewline x)) (hx : bs.head? ≠ some x ∨ as.getLast? ≠ some '\n') :
    (as ++ bs).IsChain (NotAfterNewline x) := by
  refine List.isChain_append.mpr ⟨ha, hb, ?_⟩
  rintro c hc d hd rfl rfl
  rcases hx with hx | hx
  · exact hx hd
  · exact hx hc

/-! ### Text files -/

/-- What precedes a newline does not change how what follows it is read. -/
theorem exists_lineEnds (as : List Char) : ∃ cs, ∀ bs,
    Xml.lineEnds (as ++ '\n' :: bs) = cs ++ '\n' :: Xml.lineEnds bs := by
  fun_induction Xml.lineEnds as with
  | case1 as ih =>
    obtain ⟨cs, hcs⟩ := ih
    exact ⟨'\n' :: cs, fun bs => by simp [Xml.lineEnds, hcs]⟩
  | case2 as has ih =>
    cases as with
    | nil => exact ⟨[], fun bs => rfl⟩
    | cons d ds =>
      obtain ⟨cs, hcs⟩ := ih
      have hd : d ≠ '\n' := fun h => has ds (by rw [h])
      have hends : ∀ es, Xml.lineEnds ('\r' :: d :: es) = '\n' :: Xml.lineEnds (d :: es) := fun es => by
        rw [Xml.lineEnds]
        intro cs hcs
        exact hd (List.cons.inj hcs).1
      refine ⟨'\n' :: cs, fun bs => ?_⟩
      rw [List.cons_append, List.cons_append, hends]
      exact congrArg _ (hcs bs)
  | case3 c as h h' ih =>
    obtain ⟨cs, hcs⟩ := ih
    have hc : c ≠ '\r' := h'
    have hends : ∀ es, Xml.lineEnds (c :: es) = c :: Xml.lineEnds es := fun es => by
      rw [Xml.lineEnds]
      · exact fun ds hc' => absurd hc' hc
      · exact fun hc' => absurd hc' hc
    refine ⟨c :: cs, fun bs => ?_⟩
    rw [List.cons_append, hends, hcs]
    rfl
  | case4 => exact ⟨[], fun bs => by simp [Xml.lineEnds]⟩

/-- The lines that a text file is read as. -/
def textLines (s : String) : List String := (lines (Xml.lineEnds s.toList)).map String.ofList

/-- **A file may be cut after a newline.** -/
theorem textLines_append (s t : String) : textLines (s ++ "\n" ++ t) = textLines (s ++ "\n") ++ textLines t := by
  obtain ⟨cs, hcs⟩ := exists_lineEnds s.toList
  have hsplit : (s ++ "\n" ++ t).toList = s.toList ++ '\n' :: t.toList := by simp
  have hnewline : (s ++ "\n").toList = s.toList ++ ['\n'] := by simp
  unfold textLines
  rw [hsplit, hnewline, hcs, hcs, lines_append, List.map_append]
  rfl

theorem textLines_eq {s : String} (h : '\r' ∉ s.toList) : textLines s = (lines s.toList).map String.ofList := by
  unfold textLines
  rw [Xml.lineEnds_eq h]

/-- The lines make the text. -/
theorem join_textLines {s : String} (h : '\r' ∉ s.toList) : String.join (textLines s) = s := by
  rw [textLines_eq h, ← String.toList_inj, String.toList_join, List.flatMap_map]
  simp only [String.toList_ofList]
  rw [List.flatMap_id', flatten_lines]

end TextLines
