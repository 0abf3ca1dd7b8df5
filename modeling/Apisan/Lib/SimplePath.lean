/-
# Simple paths

Paths of a relation that visit no node twice and avoid the nodes visited
before, as a depth-first search without memory follows them. A path is given
by its first node and the list of those that follow. Whatever is reachable is
so by a simple path (`Simple.exists_of_reachable`).

Key definition: `Simple`.
Key theorems: `Simple.cons_iff`, `Simple.exists_of_reachable`.
-/
import Mathlib.Data.List.Chain
import Mathlib.Data.List.Nodup

variable {N : Type*}

/-- The nodes `a :: q` are a path of `r`, with no node twice and none that has
been visited. -/
structure Simple (r : N → N → Prop) (visited : List N) (a : N) (q : List N) : Prop where
  chain : List.IsChain r (a :: q)
  nodup : (a :: q).Nodup
  fresh : ∀ x ∈ a :: q, x ∉ visited

namespace Simple

variable {r : N → N → Prop} {visited : List N} {a v : N} {q : List N}

theorem nil_iff : Simple r visited a [] ↔ a ∉ visited := by
  constructor
  · exact fun h => h.fresh a List.mem_cons_self
  · intro h
    exact ⟨.singleton a, List.nodup_singleton a, by simpa using h⟩

/-- The rest of a path avoids its first node. -/
theorem cons_iff : Simple r visited a (v :: q) ↔
    a ∉ visited ∧ r a v ∧ Simple r (visited ++ [a]) v q := by
  constructor
  · rintro ⟨hchain, hnodup, hfresh⟩
    rw [List.isChain_cons_cons] at hchain
    rw [List.nodup_cons] at hnodup
    refine ⟨hfresh a List.mem_cons_self, hchain.1, hchain.2, hnodup.2, fun x hx hmem => ?_⟩
    rcases List.mem_append.mp hmem with hmem | hmem
    · exact hfresh x (List.mem_cons_of_mem _ hx) hmem
    · rw [List.mem_singleton.mp hmem] at hx
      exact hnodup.1 hx
  · rintro ⟨ha, hr, hchain, hnodup, hfresh⟩
    refine ⟨List.isChain_cons_cons.mpr ⟨hr, hchain⟩, List.nodup_cons.mpr ⟨fun hmem => ?_, hnodup⟩, ?_⟩
    · exact hfresh a hmem (by simp)
    · exact List.forall_mem_cons.mpr ⟨ha, fun x hx hmem => hfresh x hx (by simp [hmem])⟩

theorem getLastD_append_cons (l₂ : List N) (a : N) : ∀ (l₁ : List N) (c : N),
    (l₁ ++ a :: l₂).getLastD c = l₂.getLastD a
  | [], _ => List.getLastD_cons
  | b :: l₁, _ => List.getLastD_cons.trans (getLastD_append_cons l₂ a l₁ b)

/-- **What is reachable is so by a simple path.** -/
theorem exists_of_reachable {b : N} (h : Relation.ReflTransGen r a b) :
    ∃ q, Simple r [] a q ∧ q.getLastD a = b := by
  induction h using Relation.ReflTransGen.head_induction_on with
  | refl => exact ⟨[], nil_iff.mpr List.not_mem_nil, rfl⟩
  | @head a c hr _ ih =>
    obtain ⟨q, ⟨hchain, hnodup, -⟩, hlast⟩ := ih
    by_cases ha : a ∈ c :: q
    · -- the path to `b` comes back to `a`: its rest will do
      obtain ⟨l₁, l₂, hsplit⟩ := List.append_of_mem ha
      rw [hsplit] at hchain hnodup
      refine ⟨l₂, ⟨hchain.right_of_append, hnodup.of_append_right, by simp⟩, ?_⟩
      have hend : (c :: q).getLastD c = (l₁ ++ a :: l₂).getLastD c := by rw [hsplit]
      rw [List.getLastD_cons, getLastD_append_cons] at hend
      rw [← hlast, hend]
    · exact ⟨c :: q, ⟨List.isChain_cons_cons.mpr ⟨hr, hchain⟩, List.nodup_cons.mpr ⟨ha, hnodup⟩, by simp⟩,
        by rw [List.getLastD_cons, hlast]⟩

end Simple
