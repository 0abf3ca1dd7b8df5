/-
# Memo tables

A table keeps the result of a call under a key and is never invalidated: a
later call with the key gets the result kept, whatever its input. A call that
raises keeps nothing. So what a call gets is the function at the input of the
first call with its key that returned (`result_eq`), and calls whose input is
the present one do not change what a call would get (`first_append_now`).

Key definitions: `Memo.result`, `Memo.call`, `Memo.first`.
Key theorems: `Memo.tableAfter_eq`, `Memo.result_eq`, `Memo.first_append_now`.
-/
import Mathlib.Data.List.Induction
import Mathlib.Logic.Function.Basic

namespace Memo

variable {K I O E : Type*} [DecidableEq K]

/-- A call: its key, and the input that the function would have. -/
structure Call (K I : Type*) where
  key : K
  input : I

section

variable (f : K → I → Except E O)

/-- What a call gets: the result kept, or the function at its input. -/
def result (t : K → Option O) (c : Call K I) : Except E O :=
  match t c.key with
  | some o => .ok o
  | none => f c.key c.input

/-- The table after a call. -/
def call (t : K → Option O) (c : Call K I) : K → Option O :=
  Function.update t c.key (result f t c).toOption

/-- The table after the calls, from an empty one. -/
def tableAfter (calls : List (Call K I)) : K → Option O := calls.foldl (call f) fun _ => none

/-- The input of the first call with the key that returns. -/
def first (calls : List (Call K I)) (k : K) : Option I :=
  (calls.find? fun c => decide (c.key = k) && (f k c.input).isOk).map Call.input

end

variable {f : K → I → Except E O}

theorem first_append (calls calls' : List (Call K I)) (k : K) :
    first f (calls ++ calls') k = (first f calls k).or (first f calls' k) := by
  rw [first, List.find?_append, Option.map_or]
  rfl

/-- The function returns at a first input. -/
theorem ok_of_first {calls : List (Call K I)} {k : K} {i : I} (h : first f calls k = some i) :
    ∃ o, f k i = .ok o := by
  obtain ⟨c, hc, rfl⟩ := Option.map_eq_some_iff.mp h
  have hok := List.find?_some hc
  rw [Bool.and_eq_true] at hok
  cases hf : f k c.input with
  | ok o => exact ⟨o, rfl⟩
  | error e =>
    rw [hf] at hok
    cases hok.2

theorem tableAfter_concat (calls : List (Call K I)) (c : Call K I) :
    tableAfter f (calls ++ [c]) = call f (tableAfter f calls) c := by
  rw [tableAfter, List.foldl_append]
  rfl

/-- **What a table keeps**: the function at the first inputs. -/
theorem tableAfter_eq (calls : List (Call K I)) (k : K) :
    tableAfter f calls k = (first f calls k).bind fun i => (f k i).toOption := by
  induction calls using List.reverseRecOn with
  | nil => rfl
  | append_singleton calls c ih =>
    rw [tableAfter_concat, call, first_append]
    by_cases hk : k = c.key
    · subst hk
      rw [Function.update_self, result, ih]
      cases hfirst : first f calls c.key with
      | some i =>
        obtain ⟨o, ho⟩ := ok_of_first hfirst
        rw [Option.some_or, Option.bind_some, ho]
        rfl
      | none =>
        rw [Option.none_or, Option.bind_none, first]
        cases hf : f c.key c.input <;> simp [hf, Except.isOk, Except.toBool, Except.toOption]
    · have hmiss : first f [c] k = none := by
        rw [first]
        simp [Ne.symm hk]
      rw [Function.update_of_ne hk, ih, hmiss, Option.or_none]

/-- **What a call gets**: the function at the input of the first call with its
key that returned, and at its own input if there is none. -/
theorem result_eq (calls : List (Call K I)) (k : K) (i : I) :
    result f (tableAfter f calls) ⟨k, i⟩ = f k ((first f calls k).getD i) := by
  rw [result, tableAfter_eq]
  cases hfirst : first f calls k with
  | none => rfl
  | some i' =>
    obtain ⟨o, ho⟩ := ok_of_first hfirst
    rw [Option.bind_some, Option.getD_some, ho]
    rfl

/-- Calls with the present input do not change what a call with it would get. -/
theorem first_append_now {calls now : List (Call K I)} {k : K} {i : I}
    (hnow : ∀ c ∈ now, c.key = k → c.input = i) :
    (first f (calls ++ now) k).getD i = (first f calls k).getD i := by
  rw [first_append]
  cases first f calls k with
  | some _ => rfl
  | none =>
    rw [Option.none_or]
    cases hfirst : first f now k with
    | none => rfl
    | some i' =>
      obtain ⟨c, hc, rfl⟩ := Option.map_eq_some_iff.mp hfirst
      have hkey := List.find?_some hc
      rw [Bool.and_eq_true, decide_eq_true_eq] at hkey
      exact hnow c (List.mem_of_find?_eq_some hc) hkey.1

end Memo
