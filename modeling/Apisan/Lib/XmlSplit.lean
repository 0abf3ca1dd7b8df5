/-
# What follows a text

Where a text is followed by markup, most of what the reader asks of the text does
not depend on the markup: names, references and tags end before a `<` as they do
before the end of the text (`Stops`), and what has its own end is read the same
if that comes first (`Splices`). So the tokens of a text before a sealed one are
those of the text before any other markup, and they stand for fewer characters
than it has, unless it is plain (`Tokens.split`).

Key definitions: `Xml.Stops`, `Xml.Splices`.
Key theorems: `Xml.token_splices`, `Xml.Tokens.split`.
-/
import Apisan.Lib.Xml

namespace Xml

/-! ### What ends before markup -/

/-- A `<` is as good as the end of the text. -/
def Stops {α : Type} (f : List Char → Option (α × List Char)) : Prop :=
  ∀ a r, f (a ++ '<' :: r) = (f a).map fun x => (x.1, x.2 ++ '<' :: r)

theorem dropWhile_stops {p : Char → Bool} (hp : p '<' = false) (a r : List Char) :
    (a ++ '<' :: r).dropWhile p = a.dropWhile p ++ '<' :: r := by
  rw [List.dropWhile_append]
  by_cases hnil : a.dropWhile p = []
  · simp [hnil, hp]
  · simp [hnil]

theorem takeWhile_stops {p : Char → Bool} (hp : p '<' = false) (a r : List Char) :
    (a ++ '<' :: r).takeWhile p = a.takeWhile p := by
  rw [List.takeWhile_append]
  by_cases hall : (a.takeWhile p).length = a.length
  · simp [hp, (List.takeWhile_prefix p).eq_of_length hall]
  · simp [hall]

theorem skipSpace_stops (a r : List Char) : skipSpace (a ++ '<' :: r) = skipSpace a ++ '<' :: r :=
  dropWhile_stops (by decide) a r

theorem name_stops : Stops name := by
  intro a r
  cases a with
  | nil => rfl
  | cons c a =>
    rw [List.cons_append, name, name, takeWhile_stops (by decide), dropWhile_stops (by decide)]
    by_cases hc : isNameStart c = true
    · rw [if_pos hc, if_pos hc]
      rfl
    · rw [if_neg hc, if_neg hc]
      rfl

/-- The beginning of a text is dropped, or not, before the markup. -/
theorem dropPrefix_stops {p : List Char} (hp : '<' ∉ p) (a r : List Char) :
    (a ++ '<' :: r).dropPrefix? p = (a.dropPrefix? p).map fun x => x ++ '<' :: r := by
  induction p generalizing a with
  | nil => simp
  | cons d p ih =>
    rw [List.mem_cons, not_or] at hp
    cases a with
    | nil =>
      have hne : ('<' == d) = false := beq_eq_false_iff_ne.mpr hp.1
      simp [List.dropPrefix?, hne]
    | cons c a =>
      rw [List.cons_append, List.dropPrefix?, List.dropPrefix?]
      by_cases hc : (c == d) = true
      · rw [if_pos hc, if_pos hc]
        exact ih hp.2 a
      · rw [if_neg hc, if_neg hc]
        rfl

/-- A stop before the markup is found. -/
theorem before_some {stop a : List Char} (hstop : '<' ∉ stop) (r : List Char) {x : List Char × List Char}
    (h : before stop a = some x) : before stop (a ++ '<' :: r) = some (x.1, x.2 ++ '<' :: r) := by
  induction a generalizing x with
  | nil => cases h
  | cons c a ih =>
    rw [before] at h
    rw [List.cons_append, before, ← List.cons_append, dropPrefix_stops hstop]
    cases hdrop : (c :: a).dropPrefix? stop with
    | some rest =>
      rw [hdrop] at h
      cases h
      rfl
    | none =>
      rw [hdrop] at h
      obtain ⟨y, hy, rfl⟩ := Option.map_eq_some_iff.mp h
      simp only [Option.map_none, ih hy, Option.map_some]

/-- A stop after the markup has it before itself. -/
theorem mem_of_before_none {stop a r : List Char} (hstop : '<' ∉ stop) (hne : stop ≠ [])
    (h : before stop a = none) {x : List Char × List Char} (hx : before stop (a ++ '<' :: r) = some x) :
    '<' ∈ x.1 := by
  induction a generalizing x with
  | nil =>
    have hdrop : ('<' :: r).dropPrefix? stop = none := by
      obtain ⟨d, p, rfl⟩ := List.exists_cons_of_ne_nil hne
      rw [List.mem_cons, not_or] at hstop
      simp [List.dropPrefix?, beq_eq_false_iff_ne.mpr hstop.1]
    rw [List.nil_append, before, hdrop] at hx
    obtain ⟨y, -, rfl⟩ := Option.map_eq_some_iff.mp hx
    exact List.mem_cons_self
  | cons c a ih =>
    rw [before] at h
    rw [List.cons_append, before, ← List.cons_append, dropPrefix_stops hstop] at hx
    cases hdrop : (c :: a).dropPrefix? stop with
    | some rest =>
      rw [hdrop] at h
      cases h
    | none =>
      rw [hdrop] at h hx
      obtain ⟨y, hy, rfl⟩ := Option.map_eq_some_iff.mp hx
      exact List.mem_cons_of_mem c (ih (Option.map_eq_none_iff.mp h) hy)

/-- What is read up to a stop and has no markup. -/
theorem before_stops {α : Type} {stop : List Char} (hstop : '<' ∉ stop) (hne : stop ≠ [])
    {k : List Char → Option α} (hk : ∀ b v, k b = some v → '<' ∉ b) :
    Stops fun cs => (before stop cs).bind fun x => (k x.1).map fun v => (v, x.2) := by
  intro a r
  simp only
  cases ha : before stop a with
  | some x =>
    rw [before_some hstop r ha, Option.bind_some, Option.bind_some, Option.map_map]
    rfl
  | none =>
    cases hx : before stop (a ++ '<' :: r) with
    | none => rfl
    | some x =>
      have hmem := mem_of_before_none hstop hne ha hx
      cases hkx : k x.1 with
      | none => simp [hkx]
      | some v => exact absurd hmem (hk _ _ hkx)

theorem reference_stops : Stops reference := by
  have h : Stops fun cs => (before [';'] cs).bind fun x => (entity x.1).map fun v => (v, x.2) :=
    before_stops (by decide) (List.cons_ne_nil _ _) fun b v hv => (entity_notMem hv).1
  have heq : reference = fun cs => (before [';'] cs).bind fun x => (entity x.1).map fun v => (v, x.2) := by
    funext cs
    rw [reference]
    cases before [';'] cs with
    | none => rfl
    | some x => cases hx : entity x.1 <;> simp [hx]
  rw [heq]
  exact h

/-- An attribute's value, in its quotes. -/
theorem quoted_stops {q : Char} (hq : q ≠ '<') (n : List Char) :
    Stops (fun cs => do
      let (raw, rest) ← before [q] cs
      let v ← value raw.length raw
      some ((n, v), rest)) := by
  have h : Stops fun cs => (before [q] cs).bind fun x => ((value x.1.length x.1).map fun v => (n, v)).map fun v =>
      (v, x.2) := by
    have hstop : '<' ∉ [q] := by simpa using hq.symm
    refine before_stops (k := fun b => (value b.length b).map fun v => (n, v)) hstop (List.cons_ne_nil q [])
      fun b v hv => ?_
    obtain ⟨w, hw, -⟩ := Option.map_eq_some_iff.mp hv
    exact value_notMem hw
  intro a r
  have heq : ∀ cs, (do
      let (raw, rest) ← before [q] cs
      let v ← value raw.length raw
      some ((n, v), rest)) = (before [q] cs).bind fun x => ((value x.1.length x.1).map fun v => (n, v)).map fun v =>
        (v, x.2) := by
    intro cs
    cases before [q] cs with
    | none => rfl
    | some x => cases hx : value x.1.length x.1 <;> simp [hx]
  simp only [heq]
  exact h a r

theorem attr_stops : Stops attr := by
  intro a r
  unfold attr
  rw [name_stops]
  cases name a with
  | none => rfl
  | some x =>
    obtain ⟨n, rest⟩ := x
    simp only [Option.map_some, Option.bind_eq_bind, Option.bind_some, skipSpace_stops]
    cases skipSpace rest with
    | nil => simp
    | cons c rest =>
      by_cases hc : c = '='
      · subst hc
        simp only [List.cons_append, skipSpace_stops]
        cases skipSpace rest with
        | nil => rfl
        | cons q rest =>
          simp only [List.cons_append]
          by_cases hq : "\"'".toList.contains q = true
          · have hlt : q ≠ '<' := fun h => absurd (h ▸ hq) (by decide)
            rw [if_pos hq, if_pos hq]
            exact quoted_stops hlt n rest r
          · rw [if_neg hq, if_neg hq]
            rfl
      · simp [hc]

/-- The attributes of a tag that does not end. -/
theorem attributes_attr {n : ℕ} {cs : List Char} (hclose : ∀ rest, skipSpace cs ≠ '>' :: rest)
    (hempty : ∀ rest, skipSpace cs ≠ '/' :: '>' :: rest) :
    attributes (n + 1) cs = if (skipSpace cs).length < cs.length then do
      let (a, rest) ← attr (skipSpace cs)
      let ((as, empty), rest) ← attributes n rest
      if a.1 ∈ as.map Prod.fst then none else some ((a :: as, empty), rest)
    else none := by
  rw [attributes]
  split
  · exact absurd ‹_› (hclose _)
  · exact absurd ‹_› (hempty _)
  · rfl

theorem attributes_stops (n : ℕ) : Stops (attributes n) := by
  intro a r
  induction n generalizing a with
  | zero => rfl
  | succ n ih =>
    by_cases hclose : ∃ rest, skipSpace a = '>' :: rest
    · obtain ⟨rest, hrest⟩ := hclose
      rw [attributes, attributes, skipSpace_stops, hrest]
      rfl
    by_cases hempty : ∃ rest, skipSpace a = '/' :: '>' :: rest
    · obtain ⟨rest, hrest⟩ := hempty
      rw [attributes, attributes, skipSpace_stops, hrest]
      rfl
    -- neither ends across the markup
    have hclose' : ∀ rest, skipSpace (a ++ '<' :: r) ≠ '>' :: rest := by
      rw [skipSpace_stops]
      cases hskip : skipSpace a with
      | nil => simp
      | cons c ds =>
        rintro rest hrest
        obtain ⟨rfl, -⟩ := List.cons.inj hrest
        exact hclose ⟨ds, hskip⟩
    have hempty' : ∀ rest, skipSpace (a ++ '<' :: r) ≠ '/' :: '>' :: rest := by
      rw [skipSpace_stops]
      rcases hskip : skipSpace a with - | ⟨c, - | ⟨d, ds⟩⟩
      · simp
      · simp
      · rintro rest hrest
        simp only [List.cons_append, List.cons.injEq] at hrest
        obtain ⟨rfl, rfl, -⟩ := hrest
        exact hempty ⟨ds, hskip⟩
    rw [attributes_attr hclose' hempty', attributes_attr (not_exists.mp hclose) (not_exists.mp hempty),
      skipSpace_stops, List.length_append, List.length_append]
    by_cases hlt : (skipSpace a).length < a.length
    · rw [if_pos (by omega), if_pos hlt, attr_stops]
      cases attr (skipSpace a) with
      | none => rfl
      | some x =>
        simp only [Option.map_some, Option.bind_eq_bind, Option.bind_some, ih]
        cases attributes n x.2 with
        | none => rfl
        | some y =>
          simp only [Option.map_some, Option.bind_some]
          split_ifs
          · rfl
          · rfl
    · rw [if_neg (by omega), if_neg hlt]
      rfl

/-- There are fewer attributes than characters. -/
theorem attributes_fuel {n m : ℕ} {a : List Char} (hn : a.length < n) (hm : a.length < m) :
    attributes n a = attributes m a := by
  induction n generalizing a m with
  | zero => omega
  | succ n ih =>
    obtain ⟨m, rfl⟩ : ∃ k, m = k + 1 := ⟨m - 1, by omega⟩
    by_cases hclose : ∃ rest, skipSpace a = '>' :: rest
    · obtain ⟨rest, hrest⟩ := hclose
      rw [attributes, attributes, hrest]
      rfl
    by_cases hempty : ∃ rest, skipSpace a = '/' :: '>' :: rest
    · obtain ⟨rest, hrest⟩ := hempty
      rw [attributes, attributes, hrest]
      rfl
    rw [attributes_attr (not_exists.mp hclose) (not_exists.mp hempty),
      attributes_attr (not_exists.mp hclose) (not_exists.mp hempty)]
    by_cases hlt : (skipSpace a).length < a.length
    · rw [if_pos hlt, if_pos hlt]
      cases hattr : attr (skipSpace a) with
      | none => rfl
      | some x =>
        obtain ⟨used, hused, -⟩ := attr_reaches hattr
        have hlen : (skipSpace a).length = used.length + x.2.length := by rw [hused, List.length_append]
        have hsame : attributes n x.2 = attributes m x.2 := ih (by omega) (by omega)
        simp only [Option.bind_eq_bind, Option.bind_some, hsame]
    · rw [if_neg hlt, if_neg hlt]

theorem closeTag_stops : Stops closeTag := by
  intro a r
  unfold closeTag
  rw [name_stops]
  cases name a with
  | none => rfl
  | some x =>
    obtain ⟨n, rest⟩ := x
    simp only [Option.map_some, Option.bind_eq_bind, Option.bind_some, skipSpace_stops]
    cases skipSpace rest with
    | nil => simp
    | cons c rest =>
      by_cases hc : c = '>'
      · subst hc
        rfl
      · simp [hc]

theorem openTag_stops : Stops openTag := by
  intro a r
  unfold openTag
  rw [name_stops]
  cases name a with
  | none => rfl
  | some x =>
    obtain ⟨n, rest⟩ := x
    simp only [Option.map_some, Option.bind_eq_bind, Option.bind_some]
    have hlen : rest.length < (rest ++ '<' :: r).length + 1 := by
      rw [List.length_append]
      omega
    rw [attributes_stops, attributes_fuel hlen (Nat.lt_succ_self rest.length)]
    cases attributes (rest.length + 1) rest with
    | none => rfl
    | some x => rfl

/-! ### What has its own end -/

/-- What ends before markup is read the same before any other. -/
def Splices {α : Type} (f : List Char → Option (α × List Char)) : Prop :=
  ∀ {a b r : List Char} {v : α}, f (a ++ '<' :: r) = some (v, b ++ '<' :: r) →
    ∀ r', f (a ++ '<' :: r') = some (v, b ++ '<' :: r')

theorem Stops.splices {α : Type} {f : List Char → Option (α × List Char)} (hf : Stops f) : Splices f := by
  intro a b r v h r'
  rw [hf] at h
  obtain ⟨x, hx, heq⟩ := Option.map_eq_some_iff.mp h
  obtain ⟨rfl, hb⟩ := Prod.mk.inj heq
  rw [hf, hx, ← List.append_cancel_right hb]
  rfl

/-- The first stop is where it is, whatever follows it. -/
theorem before_append {stop body x : List Char} (hne : stop ≠ [])
    (h : before stop (body ++ (stop ++ x)) = some (body, x)) (y : List Char) :
    before stop (body ++ (stop ++ y)) = some (body, y) := by
  induction body with
  | nil =>
    have hdrop : (stop ++ y).dropPrefix? stop = some y := List.dropPrefix?_append_of_beq y (beq_self_eq_true stop)
    obtain ⟨d, p, rfl⟩ := List.exists_cons_of_ne_nil hne
    rw [List.nil_append, List.cons_append, before, ← List.cons_append, hdrop]
  | cons c body ih =>
    rw [List.cons_append, before] at h ⊢
    cases hx : (c :: (body ++ (stop ++ x))).dropPrefix? stop with
    | some rest =>
      rw [hx] at h
      cases h
    | none =>
      rw [hx] at h
      obtain ⟨z, hz, heq⟩ := Option.map_eq_some_iff.mp h
      obtain ⟨hbody, rfl⟩ := Prod.mk.inj heq
      have hz' : before stop (body ++ (stop ++ z.2)) = some (body, z.2) := by
        rw [hz, ← (List.cons.inj hbody).2]
      have hy : (c :: (body ++ (stop ++ y))).dropPrefix? stop = none := by
        by_contra hsome
        obtain ⟨rest, hrest⟩ := Option.ne_none_iff_exists'.mp hsome
        -- an earlier stop would not reach behind this one
        have hpre : stop <+: c :: body ++ stop ++ y := ⟨rest, by rw [← dropPrefix_eq hrest]; simp⟩
        have hpre' : stop <+: c :: body ++ stop :=
          List.prefix_of_prefix_length_le hpre (List.prefix_append _ _)
            (by rw [List.length_append]; exact Nat.le_add_left _ _)
        obtain ⟨more, hmore⟩ := hpre'
        have hfound : (c :: (body ++ (stop ++ z.2))).dropPrefix? stop = some (more ++ z.2) := by
          have heq' : c :: (body ++ (stop ++ z.2)) = stop ++ (more ++ z.2) := by
            calc c :: (body ++ (stop ++ z.2)) = (c :: body ++ stop) ++ z.2 := by simp
              _ = stop ++ (more ++ z.2) := by rw [← hmore, List.append_assoc]
          rw [heq']
          exact List.dropPrefix?_append_of_beq _ (beq_self_eq_true stop)
        rw [hx] at hfound
        cases hfound
      rw [hy, ih hz']
      rfl

theorem before_splices {stop : List Char} (hne : stop ≠ []) : Splices (before stop) := by
  intro a b r body h r'
  have heq : a ++ '<' :: r = body ++ (stop ++ b) ++ '<' :: r := by
    rw [before_eq h]
    simp
  obtain rfl := List.append_cancel_right heq
  rw [List.append_assoc, List.append_assoc] at h ⊢
  exact before_append hne h _

theorem comment_splices : Splices comment := by
  intro a b r t h r'
  obtain ⟨⟨body, rest⟩, hbody, h⟩ := Option.bind_eq_some_iff.mp h
  simp only at h
  split at h
  · rename_i rest'
    split_ifs at h with hall
    cases h
    have hbody' : before ['-', '-'] (a ++ '<' :: r') = some (body, '>' :: b ++ '<' :: r') :=
      before_splices (List.cons_ne_nil _ _) hbody r'
    rw [comment, hbody']
    exact if_pos hall
  · cases h

theorem cdata_splices : Splices cdata := by
  intro a b r t h r'
  obtain ⟨⟨body, rest⟩, hbody, h⟩ := Option.bind_eq_some_iff.mp h
  simp only at h
  split_ifs at h with hall
  cases h
  rw [cdata, before_splices (List.cons_ne_nil _ _) hbody r']
  exact if_pos hall

theorem instruction_splices : Splices instruction := by
  intro a b r t h r'
  obtain ⟨⟨n, rest⟩, hn, h⟩ := Option.bind_eq_some_iff.mp h
  obtain ⟨⟨body, rest'⟩, hbody, h⟩ := Option.bind_eq_some_iff.mp h
  simp only at h
  split_ifs at h with hall
  cases h
  rw [name_stops] at hn
  obtain ⟨x, hx, heq⟩ := Option.map_eq_some_iff.mp hn
  obtain ⟨rfl, rfl⟩ := Prod.mk.inj heq
  rw [instruction, name_stops, hx]
  simp only [Option.map_some, Option.bind_eq_bind, Option.bind_some, before_splices (List.cons_ne_nil _ _) hbody r',
    if_pos hall]

theorem markup_splices : Splices markup := by
  intro a b r t h r'
  unfold markup at h ⊢
  rw [dropPrefix_stops (by decide)] at h ⊢
  cases hcomment : a.dropPrefix? ['!', '-', '-'] with
  | some rest =>
    rw [hcomment] at h
    exact comment_splices h r'
  | none =>
    rw [hcomment, dropPrefix_stops (by decide)] at h
    rw [dropPrefix_stops (by decide)]
    cases hcdata : a.dropPrefix? ['!', '[', 'C', 'D', 'A', 'T', 'A', '['] with
    | some rest =>
      rw [hcdata] at h
      exact cdata_splices h r'
    | none =>
      rw [hcdata, dropPrefix_stops (by decide)] at h
      rw [dropPrefix_stops (by decide)]
      cases hinstruction : a.dropPrefix? ['?'] with
      | some rest =>
        rw [hinstruction] at h
        exact instruction_splices h r'
      | none =>
        rw [hinstruction, dropPrefix_stops (by decide)] at h
        rw [dropPrefix_stops (by decide)]
        cases hclose : a.dropPrefix? ['/'] with
        | some rest =>
          rw [hclose] at h
          exact closeTag_stops.splices h r'
        | none =>
          rw [hclose] at h
          exact openTag_stops.splices h r'

/-- **A token that ends before markup** is the same before any other. -/
theorem token_splices : Splices token := by
  intro a b r t h r'
  cases a with
  | nil =>
    have hlen := token_length h
    simp only [List.nil_append, List.length_append, List.length_cons] at hlen
    omega
  | cons c a =>
    rw [List.cons_append, token] at h ⊢
    by_cases hlt : c = '<'
    · rw [if_pos hlt] at h ⊢
      exact markup_splices h r'
    rw [if_neg hlt] at h ⊢
    by_cases hamp : c = '&'
    · rw [if_pos hamp] at h ⊢
      obtain ⟨⟨d, rest⟩, hd, heq⟩ := Option.map_eq_some_iff.mp h
      obtain ⟨rfl, rfl⟩ := Prod.mk.inj heq
      rw [reference_stops.splices hd r']
      rfl
    · have hend : ∀ r, (c :: (a ++ '<' :: r)).dropPrefix? [']', ']', '>'] = none ↔
          (c :: a).dropPrefix? [']', ']', '>'] = none := fun r => by
        rw [← List.cons_append, dropPrefix_stops (by decide), Option.map_eq_none_iff]
      simp only [if_neg hamp, hend] at h ⊢
      split_ifs at h with hchar
      obtain ⟨rfl, hb⟩ := Prod.mk.inj (Option.some.inj h)
      obtain rfl := List.append_cancel_right hb
      rw [if_pos hchar]

/-! ### The tokens before a sealed text -/

/-- **The tokens of a text before a sealed one** are those of the text before any
other markup. They stand for fewer characters than it has, unless it is plain. -/
theorem Tokens.split {code suffix : List Char} {ts : List Token} (h : Tokens (code ++ suffix) ts)
    (hs : Sealed suffix) : ∃ ts₁ ts₂, ts = ts₁ ++ ts₂ ∧ Tokens suffix ts₂ ∧
      (∀ r, Scan (code ++ '<' :: r) ts₁ ('<' :: r)) ∧ width ts₁ ≤ code.length ∧
      (width ts₁ = code.length → Plain code) := by
  generalize hcs : code ++ suffix = cs at h
  unfold Tokens at h
  generalize hend : ([] : List Char) = e at h
  induction h generalizing code with
  | nil =>
    subst hend
    obtain ⟨ds, rfl⟩ := hs.eq_cons
    simp at hcs
  | @cons cs rest e t ts ht hts ih =>
    subst hend
    by_cases hcode : code = []
    · subst hcode
      rw [List.nil_append] at hcs
      subst hcs
      exact ⟨[], t :: ts, rfl, .cons ht hts, fun r => .nil _, Nat.le_refl _, fun _ => by simp [Plain]⟩
    · obtain ⟨used, hused, hclosed, hkind⟩ := token_used ht
      obtain ⟨code', rfl, hrest⟩ := hclosed.split hs hcode (hcs.trans hused)
      obtain ⟨ts₁, ts₂, rfl, hts₂, hscan, hle, hplain⟩ := ih hrest.symm rfl
      refine ⟨t :: ts₁, ts₂, rfl, hts₂, fun r => ?_, ?_, ?_⟩
      · obtain ⟨ds, rfl⟩ := hs.eq_cons
        rw [← hcs, hrest] at ht
        exact .cons (token_splices ht r) (hscan r)
      · rw [width_cons, List.length_append]
        rcases hkind with ⟨c, rfl, rfl, -⟩ | hlen
        · simp only [Token.chars, List.length_singleton]
          omega
        · omega
      · rw [width_cons, List.length_append]
        intro heq
        rcases hkind with ⟨c, rfl, rfl, hlt, hamp, hend⟩ | hlen
        · simp only [Token.chars, List.length_singleton] at heq
          obtain ⟨h₁, h₂, h₃⟩ := hplain (by omega)
          refine ⟨by simp [h₁, hlt.symm], by simp [h₂, hamp.symm], fun hmid => ?_⟩
          rcases List.infix_cons_iff.mp hmid with hpre | hmid
          · refine hend (hpre.trans ?_)
            rw [hused, hrest, ← List.append_assoc]
            exact List.prefix_append _ _
          · exact h₃ hmid
        · omega

/-- An escaped text that is read has only characters of documents. -/
theorem isChar_of_tokens {cs rest : List Char} {ts : List Token} (h : Tokens (escape cs ++ rest) ts) :
    ∀ c ∈ cs, isChar c = true := by
  induction cs generalizing ts with
  | nil => exact fun c hc => absurd hc List.not_mem_nil
  | cons c cs ih =>
    have hcons : escape (c :: cs) ++ rest = escapeChar c ++ (escape cs ++ rest) := by simp [escape]
    rw [hcons] at h
    rw [List.forall_mem_cons]
    by_cases hc : c = '&' ∨ c = '>' ∨ c = '<'
    · obtain ⟨us, -, hus⟩ := (Scan.single (token_escapeChar hc _)).tokens h
      refine ⟨?_, ih hus⟩
      rcases hc with rfl | rfl | rfl <;> decide
    · rw [not_or, not_or] at hc
      obtain ⟨h₁, h₂, h₃⟩ := hc
      rw [escapeChar, if_neg h₁, if_neg h₂, if_neg h₃] at h
      cases h with
      | @cons _ rest' _ t ts ht hts =>
        rw [List.singleton_append, token, if_neg h₃, if_neg h₁] at ht
        split_ifs at ht with hchar
        cases ht
        exact ⟨hchar.1, ih hts⟩

end Xml
