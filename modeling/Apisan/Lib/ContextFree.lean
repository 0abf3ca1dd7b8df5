/-
# What a grammar derives

A context-free grammar given by its productions, and what a string of symbols
derives, one production for each nonterminal (`Yields`). From the start symbol
these are the words of the language of Mathlib's grammar with the same rules
(`Productions.mem_language`).

A string of symbols derives a word in pieces, one for each symbol (`Pieces`); a
property of nonterminals and words that every production keeps holds of all that
is derived (`Yields.made`).

Key definitions: `ContextFree.Productions`, `ContextFree.Yields`,
`ContextFree.Pieces`, `ContextFree.Productions.grammar`.
Key theorems: `ContextFree.Yields.split`, `ContextFree.Yields.made`,
`ContextFree.Productions.mem_language`.
-/
import Mathlib.Computability.ContextFreeGrammar
import Mathlib.Data.Fintype.Basic

namespace ContextFree

/-- The productions of a grammar. -/
structure Productions (τ ν π : Type*) where
  lhs : π → ν
  rhs : π → List (Symbol τ ν)

section

variable {τ ν π : Type*} (G : Productions τ ν π)

/-- The symbols derive the word. -/
inductive Yields : List (Symbol τ ν) → List τ → Prop
  | nil : Yields [] []
  | terminal (t : τ) {X : List (Symbol τ ν)} {w : List τ} : Yields X w →
    Yields (.terminal t :: X) (t :: w)
  | nonterminal (p : π) {X : List (Symbol τ ν)} {u w : List τ} : Yields (G.rhs p) u → Yields X w →
    Yields (.nonterminal (G.lhs p) :: X) (u ++ w)

/-- A word in pieces, one for each symbol, with values of the symbols. -/
inductive Pieces {α : Type*} (R : Symbol τ ν → α → List τ → Prop) :
    List (Symbol τ ν) → List α → List τ → Prop
  | nil : Pieces R [] [] []
  | cons {x : Symbol τ ν} {X : List (Symbol τ ν)} {v : α} {vs : List α} {u w : List τ} : R x v u →
    Pieces R X vs w → Pieces R (x :: X) (v :: vs) (u ++ w)

/-- A symbol's piece: the terminal itself, or a word with the property. -/
def Made (M : ν → List τ → Prop) : Symbol τ ν → Unit → List τ → Prop
  | .terminal t, _, u => u = [t]
  | .nonterminal n, _, u => M n u

variable {G}

namespace Yields

theorem append {X Y : List (Symbol τ ν)} {u w : List τ} (hu : Yields G X u) (hw : Yields G Y w) :
    Yields G (X ++ Y) (u ++ w) := by
  induction hu with
  | nil => exact hw
  | terminal t _ ih => exact .terminal t ih
  | nonterminal p hp _ _ ih =>
    rw [List.append_assoc]
    exact .nonterminal p hp ih

theorem split : ∀ {X Y : List (Symbol τ ν)} {w : List τ}, Yields G (X ++ Y) w →
    ∃ u v, w = u ++ v ∧ Yields G X u ∧ Yields G Y v
  | [], _, w, h => ⟨[], w, rfl, .nil, h⟩
  | _ :: _, _, _, .terminal t h => by
    obtain ⟨u, v, rfl, hu, hv⟩ := split h
    exact ⟨t :: u, v, rfl, .terminal t hu, hv⟩
  | _ :: _, _, _, .nonterminal p hp h => by
    obtain ⟨u, v, rfl, hu, hv⟩ := split h
    exact ⟨_ ++ u, v, (List.append_assoc _ _ _).symm, .nonterminal p hp hu, hv⟩

theorem word : ∀ w : List τ, Yields G (w.map .terminal) w
  | [] => .nil
  | t :: w => .terminal t (word w)

/-- A production for its left side. -/
theorem production {p : π} {w : List τ} (h : Yields G (G.rhs p) w) : Yields G [.nonterminal (G.lhs p)] w := by
  have hp := Yields.nonterminal p h .nil
  rwa [List.append_nil] at hp

/-- **What the productions keep, derivations keep**: a property of nonterminals
and words that each production passes from the pieces of its right side to its
left side. -/
theorem pieces {M : ν → List τ → Prop} (hM : ∀ p vs u, Pieces (Made M) (G.rhs p) vs u → M (G.lhs p) u)
    {X : List (Symbol τ ν)} {w : List τ} (h : Yields G X w) : ∃ vs, Pieces (Made M) X vs w := by
  induction h with
  | nil => exact ⟨[], .nil⟩
  | terminal t _ ih =>
    obtain ⟨vs, hvs⟩ := ih
    have ht : Made M (.terminal t) () [t] := rfl
    exact ⟨() :: vs, .cons ht hvs⟩
  | nonterminal p _ _ ihp ih =>
    obtain ⟨us, hus⟩ := ihp
    obtain ⟨vs, hvs⟩ := ih
    have hp : Made M (.nonterminal (G.lhs p)) () _ := hM p us _ hus
    exact ⟨() :: vs, .cons hp hvs⟩

theorem made {M : ν → List τ → Prop} (hM : ∀ p vs u, Pieces (Made M) (G.rhs p) vs u → M (G.lhs p) u)
    {n : ν} {w : List τ} (h : Yields G [.nonterminal n] w) : M n w := by
  obtain ⟨vs, hvs⟩ := h.pieces hM
  cases hvs with
  | cons hn hnil =>
    cases hnil
    rwa [List.append_nil]

end Yields

namespace Pieces

variable {α β : Type*} {R : Symbol τ ν → α → List τ → Prop} {S : Symbol τ ν → β → List τ → Prop}

theorem concat {X : List (Symbol τ ν)} {vs : List α} {w : List τ} (h : Pieces R X vs w) {x : Symbol τ ν}
    {v : α} {u : List τ} (hx : R x v u) : Pieces R (X ++ [x]) (vs ++ [v]) (w ++ u) := by
  induction h with
  | nil =>
    have hnil := Pieces.cons hx .nil
    rwa [List.append_nil] at hnil
  | cons hy _ ih =>
    rw [List.append_assoc]
    exact .cons hy ih

/-- A property of all pieces for another that follows from it. -/
theorem made {M N : ν → List τ → Prop} (hM : ∀ n u, M n u → N n u) {X : List (Symbol τ ν)} {vs : List Unit}
    {w : List τ} (h : Pieces (Made M) X vs w) : Pieces (Made N) X vs w := by
  induction h with
  | nil => exact .nil
  | @cons x _ _ _ _ _ hx _ ih =>
    refine .cons ?_ ih
    cases x with
    | terminal t => exact hx
    | nonterminal n => exact hM _ _ hx

theorem yields (hR : ∀ x v u, R x v u → Yields G [x] u) {X : List (Symbol τ ν)} {vs : List α} {w : List τ}
    (h : Pieces R X vs w) : Yields G X w := by
  induction h with
  | nil => exact .nil
  | cons hx _ ih => exact (hR _ _ _ hx).append ih

end Pieces

/-- Where every nonterminal derives a word, every string of symbols does. -/
theorem exists_yields (h : ∀ n, ∃ w, Yields G [.nonterminal n] w) : ∀ X : List (Symbol τ ν),
    ∃ w, Yields G X w
  | [] => ⟨[], .nil⟩
  | .terminal t :: X => by
    obtain ⟨w, hw⟩ := exists_yields h X
    exact ⟨t :: w, .terminal t hw⟩
  | .nonterminal n :: X => by
    obtain ⟨u, hu⟩ := h n
    obtain ⟨w, hw⟩ := exists_yields h X
    exact ⟨u ++ w, hu.append hw⟩

end

/-! ### Mathlib's grammars -/

namespace Productions

variable {τ π : Type*} {ν : Type} [Fintype π] [DecidableEq τ] [DecidableEq ν]

/-- A production as a rule. -/
def rule (G : Productions τ ν π) (p : π) : ContextFreeRule τ ν := ⟨G.lhs p, G.rhs p⟩

/-- The grammar with the productions. -/
def grammar (G : Productions τ ν π) (start : ν) : ContextFreeGrammar τ where
  NT := ν
  initial := start
  rules := Finset.univ.image G.rule

variable {G : Productions τ ν π} {start : ν}

theorem mem_rules {r : ContextFreeRule τ ν} : r ∈ (G.grammar start).rules ↔ ∃ p, G.rule p = r := by
  show r ∈ Finset.univ.image G.rule ↔ _
  simp

theorem produces {p : π} : (G.grammar start).Produces [.nonterminal (G.lhs p)] (G.rhs p) :=
  ⟨G.rule p, mem_rules.mpr ⟨p, rfl⟩, ContextFreeRule.Rewrites.input_output⟩

theorem derives_of_yields {X : List (Symbol τ ν)} {w : List τ} (h : Yields G X w) :
    (G.grammar start).Derives X (w.map .terminal) := by
  induction h with
  | nil => exact Relation.ReflTransGen.refl
  | terminal t _ ih => exact ih.append_left [.terminal t]
  | nonterminal p _ _ ihp ih =>
    rw [List.map_append]
    have hp := produces.trans_derives ihp
    exact (hp.append_right _).trans (ih.append_left _)

theorem yields_of_derives {X : List (Symbol τ ν)} {w : List τ}
    (h : (G.grammar start).Derives X (w.map .terminal)) : Yields G X w := by
  induction h using Relation.ReflTransGen.head_induction_on with
  | refl => exact .word w
  | head hstep _ ih =>
    obtain ⟨r, hr, hrewrites⟩ := hstep
    obtain ⟨p, rfl⟩ := mem_rules.mp hr
    obtain ⟨Y, Z, rfl, rfl⟩ := hrewrites.exists_parts
    obtain ⟨u, z, rfl, hu, hz⟩ := ih.split
    obtain ⟨y, v, rfl, hy, hv⟩ := hu.split
    exact (hy.append hv.production).append hz

/-- **The language of the grammar** is what the start symbol derives. -/
theorem mem_language {w : List τ} : w ∈ (G.grammar start).language ↔ Yields G [.nonterminal start] w :=
  ⟨yields_of_derives, derives_of_yields⟩

end Productions

end ContextFree
