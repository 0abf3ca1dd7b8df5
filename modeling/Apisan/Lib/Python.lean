/-
# What the analyzer uses of Python

The exceptions the modelled functions raise, loops whose body may raise, the
hash of a string (any function: Python salts it anew in each process), the
decimal digits that `\d` of a regular expression matches, and `int`, on the
text of a token and on any text.

Key definitions: `Python.Error`, `Python.gather`, `Python.StrHash`,
`Python.isDecimal`, `Python.int`, `Python.intText`.
Key theorems: `Python.bind_eq_ok`, `Python.gather_ok`, `Python.mem_gather`,
`Python.nodup_gather`, `Python.mapM_toOption`, `Python.int_repr`,
`Python.split_eq_iff`.
-/
import Mathlib.Data.Nat.Init
import Mathlib.Data.List.Nodup

namespace Python

/-- The exceptions, by class. -/
inductive Error
  | assertionError
  | attributeError
  | fileNotFoundError
  | indexError
  | keyError
  | lexError
  | typeError
  | unboundLocalError
  | valueError
  | zeroDivisionError
  deriving DecidableEq, Repr

@[simp] theorem ok_bind {α β : Type} (a : α) (f : α → Except Error β) : (.ok a >>= f) = f a := rfl

/-- What a computation that raised nothing went through. -/
theorem bind_eq_ok {α β : Type} {x : Except Error α} {f : α → Except Error β} {b : β} :
    (x >>= f) = .ok b ↔ ∃ a, x = .ok a ∧ f a = .ok b := by
  constructor
  · intro h
    cases x with
    | error e => cases h
    | ok a => exact ⟨a, rfl, h⟩
  · rintro ⟨a, rfl, hf⟩
    exact hf

theorem exists_eq_ok {α : Type} {x : Except Error α} (h : x.isOk = true) : ∃ a, x = .ok a := by
  cases x with
  | error e => cases h
  | ok a => exact ⟨a, rfl⟩

/-- What a loop collects: the lists its body makes of the elements, in order. -/
def gather {α β : Type} (f : α → Except Error (List β)) : List α → Except Error (List β)
  | [] => .ok []
  | a :: as => do
    let b ← f a
    let bs ← gather f as
    .ok (b ++ bs)

theorem gather_congr {α β : Type} {f g : α → Except Error (List β)} : ∀ {as : List α},
    (∀ a ∈ as, f a = g a) → gather f as = gather g as
  | [], _ => rfl
  | a :: as, h => by
    rw [List.forall_mem_cons] at h
    rw [gather, gather, h.1, gather_congr h.2]

/-- A loop raises nothing if its body never does. -/
theorem gather_ok {α β : Type} {f : α → Except Error (List β)} : ∀ {as : List α},
    (∀ a ∈ as, ∃ b, f a = .ok b) → ∃ bs, gather f as = .ok bs
  | [], _ => ⟨[], rfl⟩
  | a :: as, h => by
    rw [List.forall_mem_cons] at h
    obtain ⟨⟨b, hb⟩, hrest⟩ := h
    obtain ⟨bs, hbs⟩ := gather_ok hrest
    exact ⟨b ++ bs, by simp only [gather, hb, hbs, bind, Except.bind]⟩

/-- The body of a loop that raised nothing never did. -/
theorem of_gather_ok {α β : Type} {f : α → Except Error (List β)} : ∀ {as : List α} {bs : List β},
    gather f as = .ok bs → ∀ a ∈ as, ∃ b, f a = .ok b
  | [], _, _ => by simp
  | a :: as, bs, h => by
    obtain ⟨b, hb, h⟩ := bind_eq_ok.mp h
    obtain ⟨bs', hbs, -⟩ := bind_eq_ok.mp h
    exact List.forall_mem_cons.mpr ⟨⟨b, hb⟩, of_gather_ok hbs⟩

/-- Elements of which the body makes nothing can be left out. -/
theorem gather_filter {α β : Type} {f : α → Except Error (List β)} {p : α → Bool} : ∀ {as : List α},
    (∀ a ∈ as, p a = false → f a = .ok []) → gather f (as.filter p) = gather f as
  | [], _ => rfl
  | a :: as, h => by
    rw [List.forall_mem_cons] at h
    have ih := gather_filter h.2
    by_cases ha : p a = true
    · rw [List.filter_cons_of_pos ha, gather, gather, ih]
    · rw [List.filter_cons_of_neg ha, gather, h.1 (eq_false_of_ne_true ha), ih, ok_bind]
      exact (bind_pure _).symm

theorem mem_gather {α β : Type} {f : α → Except Error (List β)} {x : β} : ∀ {as : List α}
    {bs : List β}, gather f as = .ok bs → (x ∈ bs ↔ ∃ a ∈ as, ∃ b, f a = .ok b ∧ x ∈ b)
  | [], bs, h => by
    cases h
    simp
  | a :: as, bs, h => by
    obtain ⟨b, hb, h⟩ := bind_eq_ok.mp h
    obtain ⟨bs', hbs, h⟩ := bind_eq_ok.mp h
    cases h
    rw [List.mem_append, mem_gather hbs]
    simp [hb]

/-- A loop whose body makes one result of each element maps the elements. -/
theorem gather_map {α β : Type} {f : α → Except Error (List β)} {g : α → β} : ∀ {as : List α},
    (∀ a ∈ as, f a = .ok [g a]) → gather f as = .ok (as.map g)
  | [], _ => rfl
  | a :: as, h => by
    rw [List.forall_mem_cons] at h
    rw [gather, h.1, ok_bind, gather_map h.2]
    rfl

/-- What a loop collects has no repetitions, if the elements have none and what
the body makes of one has none either and shows which element it is from. -/
theorem nodup_gather {α β γ δ : Type} {f : α → Except Error (List β)} {k : α → γ} {g : β → γ × δ} :
    ∀ {as : List α} {bs : List β}, gather f as = .ok bs → (as.map k).Nodup →
      (∀ a ∈ as, ∀ b, f a = .ok b → (b.map g).Nodup ∧ ∀ x ∈ b, (g x).1 = k a) → (bs.map g).Nodup
  | [], bs, h, _, _ => by
    cases h
    exact List.nodup_nil
  | a :: as, bs, h, hk, hf => by
    obtain ⟨b, hb, h⟩ := bind_eq_ok.mp h
    obtain ⟨bs', hbs, h⟩ := bind_eq_ok.mp h
    cases h
    rw [List.map_cons, List.nodup_cons] at hk
    rw [List.forall_mem_cons] at hf
    obtain ⟨hnodup, hfst⟩ := hf.1 b hb
    rw [List.map_append]
    refine hnodup.append (nodup_gather hbs hk.2 hf.2) fun y hy hy' => ?_
    obtain ⟨x, hx, rfl⟩ := List.mem_map.mp hy
    obtain ⟨x', hx', heq⟩ := List.mem_map.mp hy'
    obtain ⟨a', ha', b', hb', hxb'⟩ := (mem_gather hbs).mp hx'
    obtain ⟨-, hfst'⟩ := hf.2 a' ha' b' hb'
    have hsame : k a = k a' := by rw [← hfst x hx, ← hfst' x' hxb', heq]
    exact hk.1 (hsame ▸ List.mem_map_of_mem ha')

/-- Results that are there for all elements are what a loop collects. -/
theorem mapM_toOption {α β : Type} {f : α → Option (List β)} {g : α → Except Error (List β)} :
    ∀ {as : List α}, (∀ a ∈ as, f a = (g a).toOption) →
      (as.mapM f).map List.flatten = (gather g as).toOption
  | [], _ => rfl
  | a :: as, h => by
    rw [List.forall_mem_cons] at h
    have ih := mapM_toOption h.2
    rw [List.mapM_cons, gather, h.1]
    cases g a with
    | error e => rfl
    | ok b =>
      calc ((as.mapM f).bind fun bs => some (b :: bs)).map List.flatten
        _ = ((as.mapM f).map List.flatten).map (b ++ ·) := by cases as.mapM f <;> rfl
        _ = (gather g as).toOption.map (b ++ ·) := by rw [ih]
        _ = (gather g as >>= fun bs => .ok (b ++ bs)).toOption := by cases gather g as <;> rfl

/-- The hash of a string. -/
class StrHash where
  hash : String → ℤ

/-- The first code point of each run of ten decimal digits (Unicode category
Nd). -/
def decimalZeros : List ℕ :=
  [0x30, 0x660, 0x6f0, 0x7c0, 0x966, 0x9e6, 0xa66, 0xae6, 0xb66, 0xbe6, 0xc66, 0xce6, 0xd66, 0xde6,
    0xe50, 0xed0, 0xf20, 0x1040, 0x1090, 0x17e0, 0x1810, 0x1946, 0x19d0, 0x1a80, 0x1a90, 0x1b50,
    0x1bb0, 0x1c40, 0x1c50, 0xa620, 0xa8d0, 0xa900, 0xa9d0, 0xa9f0, 0xaa50, 0xabf0, 0xff10, 0x104a0,
    0x10d30, 0x11066, 0x110f0, 0x11136, 0x111d0, 0x112f0, 0x11450, 0x114d0, 0x11650, 0x116c0,
    0x11730, 0x118e0, 0x11950, 0x11c50, 0x11d50, 0x11da0, 0x16a60, 0x16ac0, 0x16b50, 0x1d7ce,
    0x1d7d8, 0x1d7e2, 0x1d7ec, 0x1d7f6, 0x1e140, 0x1e2f0, 0x1e950, 0x1fbf0]

/-- The characters `\d` matches. -/
def isDecimal (c : Char) : Bool := decimalZeros.any fun z => z ≤ c.toNat && c.toNat < z + 10

/-- `int` on a text without sign, blanks and underscores, which is all a token
holds: its value if it is one or more of the digits 0 to 9. -/
def int (s : String) : Except Error ℤ :=
  if s.toList ≠ [] ∧ s.toList.all Char.isDigit then .ok (Nat.ofDigitChars 10 s.toList 0)
  else .error .valueError

/-- `int` undoes the decimal notation. -/
theorem int_repr (n : ℕ) : int (String.ofList (Nat.toDigits 10 n)) = .ok (n : ℤ) := by
  have hall : (Nat.toDigits 10 n).all Char.isDigit = true :=
    List.all_eq_true.mpr fun c hc => Nat.isDigit_of_mem_toDigits (by omega) (by omega) hc
  simp [int, hall, Nat.toDigits_ne_nil, Nat.ofDigitChars_ten_toDigits]

/-- The characters that `int` strips. -/
def isSpace (c : Char) : Bool :=
  (9 ≤ c.toNat && c.toNat ≤ 13) || (0x2000 ≤ c.toNat && c.toNat ≤ 0x200a) ||
    [0x20, 0x85, 0xa0, 0x1680, 0x2028, 0x2029, 0x202f, 0x205f, 0x3000].contains c.toNat

/-- `str.split` at a character. -/
def split (sep : Char) (s : String) : List String := (s.toList.splitOn sep).map String.ofList

theorem not_mem_of_mem_splitOn {α : Type*} [DecidableEq α] {a : α} : ∀ {xs l : List α},
    l ∈ xs.splitOn a → a ∉ l
  | [], l, h => by
    rw [List.splitOn_nil, List.mem_singleton] at h
    rw [h]
    exact List.not_mem_nil
  | x :: xs, l, h => by
    rw [List.splitOn_cons_eq_if_modifyHead] at h
    split_ifs at h with hx
    · rcases List.mem_cons.mp h with rfl | hl
      · exact List.not_mem_nil
      · exact not_mem_of_mem_splitOn hl
    · obtain ⟨hd, tl, hsplit⟩ := List.exists_cons_of_ne_nil (List.splitOn_ne_nil a xs)
      rw [hsplit, List.modifyHead_cons] at h
      rcases List.mem_cons.mp h with rfl | hl
      · have hhd := not_mem_of_mem_splitOn (hsplit ▸ List.mem_cons_self : hd ∈ xs.splitOn a)
        simp only [List.mem_cons, not_or]
        exact ⟨fun hax => hx (by simp [hax]), hhd⟩
      · exact not_mem_of_mem_splitOn (hsplit ▸ List.mem_cons_of_mem _ hl)

/-- The parts of a text are those that give it back. -/
theorem split_eq_iff {sep : Char} {s : String} {parts : List String} (hparts : parts ≠ []) :
    split sep s = parts ↔
      (∀ part ∈ parts, sep ∉ part.toList) ∧ s.toList = [sep].intercalate (parts.map String.toList) := by
  have hsplit : split sep s = parts ↔ s.toList.splitOn sep = parts.map String.toList := by
    constructor
    · rintro rfl
      simp [split]
    · intro h
      simp [split, h]
  rw [hsplit]
  constructor
  · intro h
    refine ⟨fun part hpart => ?_, ?_⟩
    · exact not_mem_of_mem_splitOn (h ▸ List.mem_map_of_mem hpart)
    · rw [← h, List.intercalate_splitOn]
  · rintro ⟨hsep, hs⟩
    rw [hs, List.splitOn_intercalate _ (by simpa using hsep) (by simpa using hparts)]
/-- The number of a character that `\d` matches. -/
def decimalValue (c : Char) : Option ℕ :=
  (decimalZeros.find? fun z => z ≤ c.toNat && c.toNat < z + 10).map (c.toNat - ·)

/-- `int` on any text: blanks around it, a sign, and digits with single
underscores between them. -/
def intText (s : String) : Except Error ℤ :=
  let cs := ((s.toList.dropWhile isSpace).reverse.dropWhile isSpace).reverse
  let unsigned := if cs.head? = some '-' ∨ cs.head? = some '+' then cs.drop 1 else cs
  let groups := unsigned.splitOn '_'
  if groups.any List.isEmpty then .error .valueError
  else
    match groups.flatten.mapM decimalValue with
    | none => .error .valueError
    | some digits =>
      let n : ℤ := digits.foldl (fun n d => 10 * n + d) 0
      .ok (if cs.head? = some '-' then -n else n)

end Python
