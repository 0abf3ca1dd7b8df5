/-
# The checkers that only add

The uses that the checkers of arguments, format strings, integer overflows,
return values and locks add to their contexts for a path, each
`_process_path` in the order of its source. A key made of symbols is the tuple
of their keys for a dictionary (`Symbol.key`).

Key definitions: `ArgChecker.processPath`, `FSBChecker.processPath`,
`IntOvflChecker.processPath`, `RetValChecker.processPath`,
`ThreadSafetyChecker.processPath`.
Key theorem: `ArgChecker.mem_extractNodes`.
-/
import Mathlib.Data.Rat.Defs
import Mathlib.Algebra.Order.Ring.Unbundled.Rat
import Apisan.Check.Checker

namespace Apisan

open Python

/-- A location in the code, as the resolver left it. -/
abbrev Code := Option String

variable [StrHash]

/-! ### Arguments (`argument.py`) -/

namespace ArgChecker

mutual

/-- The number of nodes of a symbol, as `children` shows them. -/
def size : Symbol → ℕ
  | .call _ args => 1 + sizes args
  | .binaryOperator lhs _ rhs => 1 + (size lhs + size rhs)
  | .field base _ => 1 + size base
  | .array base _ => 1 + size base
  | .constraint symbol _ => 1 + size symbol
  | _ => 1

def sizes : List Symbol → ℕ
  | [] => 0
  | s :: ss => size s + sizes ss

end

/-- The set with the symbol, if it is an identifier. -/
def addId (s : Finset ℤ) : Symbol → Finset ℤ
  | .id x => insert (Symbol.id x).key s
  | _ => s

/-- The loop of `extract_nodes`, for at most `n` symbols, over a stack with its
top first. -/
def extract : ℕ → List Symbol → Finset ℤ → Finset ℤ
  | n + 1, arg :: stack, s => extract n (arg.children.reverse ++ stack) (addId s arg)
  | _, _, s => s

/-- `extract_nodes`: the identifiers of a symbol. -/
def extractNodes (arg : Symbol) : Finset ℤ := extract (size arg) [arg] ∅

/-- `check_related`. -/
def checkRelated (arg1 arg2 : Symbol) : Bool :=
  let isCall : Symbol → Bool
    | .call _ _ => true
    | _ => false
  if !(isCall arg1 || isCall arg2) then false
  else decide (extractNodes arg1 ∩ extractNodes arg2 ≠ ∅)

/-- The uses of one event. -/
def processEvent (event : Event) : Except Error (List (Add (ℤ × ℕ × ℕ) Bool Code)) := do
  match ← isCall event with
  | none => .ok []
  | some a =>
    match ← a.call with
    | none => .ok []
    | some (name, args) =>
      let code ← getAttribute a.code
      .ok (args.zipIdx.flatMap fun (arg1, i) =>
        (args.zipIdx.drop (i + 1)).map fun (arg2, j) =>
          ⟨(name.key, i, j), some (checkRelated arg1 arg2), code⟩)

/-- `ArgChecker._process_path`. -/
def processPath (path : Path) : Except Error (List (Add (ℤ × ℕ × ℕ) Bool Code)) :=
  gather processEvent path.events

/-- A symbol and the ones below it. -/
inductive Below : Symbol → Symbol → Prop
  | refl (s : Symbol) : Below s s
  | child {s t u : Symbol} : t ∈ s.children → Below t u → Below s u

omit [StrHash] in
theorem sizes_append : ∀ as bs : List Symbol, sizes (as ++ bs) = sizes as + sizes bs
  | [], bs => by simp [sizes]
  | a :: as, bs => by
    rw [List.cons_append, sizes, sizes, sizes_append as bs, Nat.add_assoc]

omit [StrHash] in
theorem sizes_reverse : ∀ as : List Symbol, sizes as.reverse = sizes as
  | [] => rfl
  | a :: as => by
    rw [List.reverse_cons, sizes_append, sizes_reverse as, sizes, sizes, sizes]
    omega

omit [StrHash] in
theorem size_eq (s : Symbol) : size s = 1 + sizes s.children := by
  cases s <;> simp [size, sizes, Symbol.children]

/-- With fuel for all its symbols, the loop collects the identifiers below the
symbols on the stack. -/
theorem mem_extract : ∀ {n : ℕ} {stack : List Symbol} {s : Finset ℤ} {k : ℤ}, sizes stack ≤ n →
    (k ∈ extract n stack s ↔ k ∈ s ∨ ∃ arg ∈ stack, ∃ x, Below arg (.id x) ∧ k = (Symbol.id x).key)
  | n, [], s, k, _ => by
    cases n <;> simp [extract]
  | 0, arg :: stack, s, k, h => by
    rw [sizes, size_eq] at h
    omega
  | n + 1, arg :: stack, s, k, h => by
    have hfuel : sizes (arg.children.reverse ++ stack) ≤ n := by
      rw [sizes, size_eq] at h
      rw [sizes_append, sizes_reverse]
      omega
    have hbelow : (∃ x, Below arg (.id x) ∧ k = (Symbol.id x).key) ↔
        (∃ x, arg = .id x ∧ k = arg.key) ∨
          ∃ c ∈ arg.children, ∃ x, Below c (.id x) ∧ k = (Symbol.id x).key := by
      constructor
      · rintro ⟨x, hx, hk⟩
        cases hx with
        | refl => exact .inl ⟨x, rfl, hk⟩
        | child hc hb => exact .inr ⟨_, hc, x, hb, hk⟩
      · rintro (⟨x, rfl, hk⟩ | ⟨c, hc, x, hb, hk⟩)
        · exact ⟨x, .refl _, hk⟩
        · exact ⟨x, .child hc hb, hk⟩
    rw [extract, mem_extract hfuel]
    have hself : k ∈ addId s arg ↔ k ∈ s ∨ ∃ x, arg = .id x ∧ k = arg.key := by
      cases arg <;> simp [addId, or_comm]
    rw [hself]
    simp only [List.mem_append, List.mem_reverse, List.mem_cons, or_and_right, exists_or,
      exists_eq_left, hbelow, or_assoc]

/-- **The identifiers of a symbol** are those below it. -/
theorem mem_extractNodes {arg : Symbol} {k : ℤ} :
    k ∈ extractNodes arg ↔ ∃ x, Below arg (.id x) ∧ k = (Symbol.id x).key := by
  rw [extractNodes, mem_extract (by simp [sizes])]
  simp

end ArgChecker

/-! ### Format strings (`fsb.py`) -/

namespace FSBChecker

/-- `FORMAT_STRINGS`. -/
def formatStrings : List String := ["%d", "%p", "%x", "%s", "%u", "%c"]

/-- `is_format_string`. -/
def isFormatString (string : String) : Bool :=
  formatStrings.any fun fmt => string.toList.tails.any fun cs => fmt.toList.isPrefixOf cs

/-- The value of an argument: whether it is a string literal, and a format. -/
def value : Symbol → Bool × Bool
  | .stringLiteral string => (true, isFormatString string)
  | _ => (false, false)

/-- The uses of one event. A call that does not parse has no `args`. -/
def processEvent (event : Event) : Except Error (List (Add (ℤ × ℕ) (Bool × Bool) Code)) := do
  match ← isCall event with
  | none => .ok []
  | some a =>
    let call ← a.call
    let code ← getAttribute a.code
    let (name, args) ← getAttribute call
    .ok (args.zipIdx.map fun (arg, i) => ⟨(name.key, i), some (value arg), code⟩)

/-- `FSBChecker._process_path`. -/
def processPath (path : Path) : Except Error (List (Add (ℤ × ℕ) (Bool × Bool) Code)) :=
  gather processEvent path.events

end FSBChecker

/-! ### Integer overflows (`intovfl.py`) -/

inductive IntOvflChkType
  | wrong
  | missing
  | correct
  | undefined
  deriving DecidableEq, Repr

namespace IntOvflChecker

/-- `INT_LIMIT`. -/
def intLimit : ℚ × ℚ := (0, 2 ^ 32 - 1)

/-- The limit for the rest of an argument, when a constant is taken off it. -/
def shiftLimit (op : BinaryOp) (value : ℤ) (limit : ℚ × ℚ) : Option (ℚ × ℚ) :=
  if op = .plus then some (limit.1 - value, limit.2 - value)
  else if op = .times ∧ value ≠ 0 then some (limit.1 / value, limit.2 / value)
  else none

/-- `check_integer_overflow`, with the quotients of the limits exact. -/
def checkIntegerOverflow (cmgr : Option ConstraintMgr) :
    Symbol → ℚ × ℚ → Except Error IntOvflChkType
  | .binaryOperator lhs op rhs, limit =>
    match rhs with
    | .concreteInt value =>
      match shiftLimit op value limit with
      | some limit => checkIntegerOverflow cmgr lhs limit
      | none => .ok .undefined
    | _ =>
      match lhs with
      | .concreteInt value =>
        match shiftLimit op value limit with
        | some limit => checkIntegerOverflow cmgr rhs limit
        | none => .ok .undefined
      | _ => .ok .missing
  | arg, limit => do
    match ← getConstraint cmgr arg with
    | some [(lower, upper)] =>
      if limit.1 ≤ lower ∧ upper ≤ limit.2 then .ok .correct else .ok .wrong
    | some (_ :: _ :: _) => .ok .undefined
    | _ => if limit = intLimit then .ok .undefined else .ok .missing

/-- The use of one argument. -/
def processArg (cmgr : Option ConstraintMgr) (name : Symbol) (code : Code) (x : Symbol × ℕ) :
    Except Error (List (Add (ℤ × ℕ) IntOvflChkType Code)) :=
  match x.1 with
  | .binaryOperator _ _ _ => do
    let ret ← checkIntegerOverflow cmgr x.1 intLimit
    if ret ≠ .undefined then .ok [⟨(name.key, x.2), some ret, code⟩] else .ok []
  | _ => .ok []

/-- The uses of one event. A call that does not parse has no `args`. -/
def processEvent (cmgr : Option ConstraintMgr) (event : Event) :
    Except Error (List (Add (ℤ × ℕ) IntOvflChkType Code)) := do
  match ← isCall event with
  | none => .ok []
  | some a =>
    let call ← a.call
    let code ← getAttribute a.code
    let (name, args) ← getAttribute call
    gather (processArg cmgr name code) args.zipIdx

/-- `IntOvflChecker._process_path`. -/
def processPath (path : Path) : Except Error (List (Add (ℤ × ℕ) IntOvflChkType Code)) :=
  gather (processEvent path.cmgr) path.events

end IntOvflChecker

/-! ### Return values (`retval.py`) -/

namespace RetValChecker

/-- The use of one event, at its index. -/
def processEvent (path : Path) (x : Event × ℕ) :
    Except Error (List (Add ℤ (List (ℤ × ℤ)) Code)) := do
  match ← isReturn x.1 with
  | none => .ok []
  | some a =>
    match ← a.call with
    | none => .ok []
    | some (name, args) =>
      let code ← getAttribute a.code
      match ← getConstraint path.cmgr (.call name args) with
      -- A wrapper returns what it got: the last event before the end is skipped.
      | none => if x.2 + 2 = path.events.length then .ok [] else .ok [⟨name.key, none, code⟩]
      | some constraint => .ok [⟨name.key, some constraint, code⟩]

/-- `RetValChecker._process_path`. -/
def processPath (path : Path) : Except Error (List (Add ℤ (List (ℤ × ℤ)) Code)) :=
  gather (processEvent path) path.events.zipIdx

end RetValChecker

/-! ### Locks (`thread.py`) -/

namespace ThreadSafetyChecker

omit [StrHash]

/-- One event: whether a lock is held afterwards, and the uses so far. -/
def processEvent (s : Bool × List (Add (Option String) Bool Code)) (event : Event) :
    Except Error (Bool × List (Add (Option String) Bool Code)) := do
  match ← isCall event with
  | none => .ok s
  | some a =>
    let m ← matchCall a
    let callName ← a.callName
    let code ← getAttribute a.code
    match m with
    | .lock => .ok (true, s.2)
    | .unlock => .ok (false, s.2)
    | .other => .ok (s.1, s.2 ++ [⟨callName, some s.1, code⟩])

/-- `ThreadSafetyChecker._process_path`. -/
def processPath (path : Path) : Except Error (List (Add (Option String) Bool Code)) := do
  let s ← path.events.foldlM processEvent (false, [])
  .ok s.2

end ThreadSafetyChecker

end Apisan
