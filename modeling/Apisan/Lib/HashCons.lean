/-
# Hash-consed lists

A factory that makes a list cell only if it has none with the same profile of
the head and the same tail; a pointer is the number of cells made before it.
What is read back from the pointer of an add has the profiles of the path that
was added (`run_inv`). It is the path itself for every add of a history
exactly if no two adds have different paths with the same profiles
(`reads_back_iff`).

Cells and adds are listed newest first, so that the tail of each is found in
the rest of the list.

Key definitions: `HashCons.Cell`, `HashCons.read`, `HashCons.concat`,
`HashCons.run`, `HashCons.Separated`.
Key theorems: `HashCons.read_injective`, `HashCons.concat_spec`,
`HashCons.run_inv`, `HashCons.reads_back_iff`.
-/
import Mathlib.Data.List.Basic

namespace HashCons

/-- A cell of a list: a head, and the pointer to the tail (`none` is the empty
list). -/
structure Cell (α : Type*) where
  head : α
  tail : Option ℕ

section

variable {α β : Type*}

/-- The entry that has `i` entries after it. -/
def nth : List β → ℕ → Option β
  | [], _ => none
  | b :: bs, i => if i = bs.length then some b else nth bs i

/-- The list a pointer stands for. -/
def read : List (Cell α) → Option ℕ → List α
  | _, none => []
  | [], some _ => []
  | c :: cs, some i => if i = cs.length then c.head :: read cs c.tail else read cs (some i)

/-- The pointer is to one of the cells, or the empty list. -/
def Valid (cs : List (Cell α)) (p : Option ℕ) : Prop := ∀ i ∈ p, i < cs.length

@[simp] theorem nth_new (b : β) (bs : List β) : nth (b :: bs) bs.length = some b := by
  simp [nth]

theorem nth_old {b : β} {bs : List β} {i : ℕ} (h : i ≠ bs.length) : nth (b :: bs) i = nth bs i := by
  simp [nth, h]

@[simp] theorem read_none (cs : List (Cell α)) : read cs none = [] := by
  cases cs <;> rfl

@[simp] theorem read_new (c : Cell α) (cs : List (Cell α)) :
    read (c :: cs) (some cs.length) = c.head :: read cs c.tail := by
  simp [read]

theorem read_old {c : Cell α} {cs : List (Cell α)} {p : Option ℕ} (h : Valid cs p) :
    read (c :: cs) p = read cs p := by
  cases p with
  | none => simp
  | some i =>
    have hi : i < cs.length := h i rfl
    simp [read, Nat.ne_of_lt hi]

end

section

variable {α β : Type*} [DecidableEq β] (profile : α → β)

/-- The pointer to the cell with this profile and tail. -/
def find (b : β) (t : Option ℕ) : List (Cell α) → Option ℕ
  | [] => none
  | c :: cs => if profile c.head = b ∧ c.tail = t then some cs.length else find b t cs

/-- Add a head to a list: the cells afterwards, and the pointer. -/
def concat (cs : List (Cell α)) (e : α) (t : Option ℕ) : List (Cell α) × ℕ :=
  match find profile (profile e) t cs with
  | some i => (cs, i)
  | none => (⟨e, t⟩ :: cs, cs.length)

/-- The cells of a factory, and the pointer each add returned, newest first. -/
structure Store (α : Type*) where
  cells : List (Cell α)
  ptrs : List ℕ

/-- The list an add returned, or the empty list. -/
def Store.list (s : Store α) (p : Option ℕ) : Option ℕ := p.bind (nth s.ptrs)

/-- The adds of a history, newest first. The tail of an add is the list an
earlier add returned, given by the number of adds before that one, or the
empty list. -/
def run : List (Cell α) → Store α
  | [] => ⟨[], []⟩
  | a :: as =>
    let s := run as
    let r := concat profile s.cells a.head (s.list a.tail)
    ⟨r.1, r.2 :: s.ptrs⟩

/-- The cells of a factory: a tail is older than its cell, and no two cells
have the same profile and tail. -/
def Sound : List (Cell α) → Prop
  | [] => True
  | c :: cs => Sound cs ∧ Valid cs c.tail ∧ find profile (profile c.head) c.tail cs = none

variable {profile}

theorem find_lt {b : β} {t : Option ℕ} {i : ℕ} : ∀ {cs : List (Cell α)},
    find profile b t cs = some i → i < cs.length
  | [], h => by cases h
  | c :: cs, h => by
    rw [find] at h
    split_ifs at h
    · cases h
      simp
    · have := find_lt h
      simp only [List.length_cons]
      omega

theorem Valid.cons {cs : List (Cell α)} {p : Option ℕ} (h : Valid cs p) (c : Cell α) :
    Valid (c :: cs) p := fun i hi => by
  have := h i hi
  simp only [List.length_cons]
  omega

theorem valid_some {cs : List (Cell α)} {i : ℕ} (h : i < cs.length) : Valid cs (some i) :=
  fun _ hj => by cases hj; exact h

/-- The cell that is found has the profile and the tail looked for. -/
theorem read_find {b : β} {t : Option ℕ} {i : ℕ} : ∀ {cs : List (Cell α)}, Sound profile cs →
    find profile b t cs = some i →
    Valid cs t ∧ ∃ e, profile e = b ∧ read cs (some i) = e :: read cs t
  | [], _, h => by cases h
  | c :: cs, ⟨hs, hv, _⟩, h => by
    rw [find] at h
    split_ifs at h with hc
    · obtain ⟨hb, rfl⟩ := hc
      cases h
      exact ⟨hv.cons c, c.head, hb, by rw [read_new, read_old hv]⟩
    · obtain ⟨ht, e, he, hread⟩ := read_find hs h
      have hi := valid_some (find_lt h)
      exact ⟨ht.cons c, e, he, by rw [read_old hi, hread, read_old ht]⟩

/-- Every cell is found under its profile and tail. -/
theorem read_cell {i : ℕ} : ∀ {cs : List (Cell α)}, Sound profile cs → i < cs.length →
    ∃ e t, Valid cs t ∧ read cs (some i) = e :: read cs t ∧
      find profile (profile e) t cs = some i
  | [], _, h => by simp at h
  | c :: cs, ⟨hs, hv, hnew⟩, h => by
    by_cases hi : i = cs.length
    · subst hi
      refine ⟨c.head, c.tail, hv.cons c, by rw [read_new, read_old hv], ?_⟩
      rw [find, if_pos ⟨rfl, rfl⟩]
    · have hlt : i < cs.length := by
        simp only [List.length_cons] at h
        omega
      obtain ⟨e, t, ht, hread, hfind⟩ := read_cell hs hlt
      refine ⟨e, t, ht.cons c, by rw [read_old (valid_some hlt), hread, read_old ht], ?_⟩
      rw [find, if_neg, hfind]
      rintro ⟨hp, rfl⟩
      rw [hp, hfind] at hnew
      cases hnew

/-- **Pointers are equal when the profiles read back are.** -/
theorem read_injective : ∀ {cs : List (Cell α)}, Sound profile cs → ∀ {p q : Option ℕ},
    Valid cs p → Valid cs q → (read cs p).map profile = (read cs q).map profile → p = q
  | [], _, p, q, hp, hq, _ => by
    cases p with
    | some i => exact absurd (hp i rfl) (by simp)
    | none =>
      cases q with
      | some i => exact absurd (hq i rfl) (by simp)
      | none => rfl
  | c :: cs, hs, p, q, hp, hq, h => by
    obtain ⟨hcs, hv, hnew⟩ := id hs
    have hold : ∀ {i}, i < (c :: cs).length → i ≠ cs.length → i < cs.length := by
      intro i hi hne
      simp only [List.length_cons] at hi
      omega
    -- A new cell has the profile and tail of no old one.
    have hne : ∀ {i}, i < cs.length →
        (read (c :: cs) (some cs.length)).map profile ≠ (read cs (some i)).map profile := by
      intro i hi heq
      obtain ⟨e, t, ht, hread, hfind⟩ := read_cell hcs hi
      rw [read_new, hread, List.map_cons, List.map_cons, List.cons.injEq] at heq
      rw [heq.1, read_injective hcs hv ht heq.2, hfind] at hnew
      cases hnew
    cases p with
    | none =>
      cases q with
      | none => rfl
      | some j =>
        obtain ⟨e, t, -, hread, -⟩ := read_cell hs (hq j rfl)
        rw [hread, read_none] at h
        cases h
    | some i =>
      cases q with
      | none =>
        obtain ⟨e, t, -, hread, -⟩ := read_cell hs (hp i rfl)
        rw [hread, read_none] at h
        cases h
      | some j =>
        by_cases hi : i = cs.length <;> by_cases hj : j = cs.length
        · rw [hi, hj]
        · have hj' := hold (hq j rfl) hj
          rw [hi, read_old (valid_some hj')] at h
          exact absurd h (hne hj')
        · have hi' := hold (hp i rfl) hi
          rw [hj, read_old (valid_some hi')] at h
          exact absurd h.symm (hne hi')
        · have hi' := valid_some (hold (hp i rfl) hi)
          have hj' := valid_some (hold (hq j rfl) hj)
          rw [read_old hi', read_old hj'] at h
          exact read_injective hcs hi' hj' h

/-- **What `concat` does.** It returns a list with the head's profile and the
tail given; the lists there were read as before; the cell is the one found, or
a new one with the head. -/
theorem concat_spec {cs : List (Cell α)} (hs : Sound profile cs) (e : α) {t : Option ℕ}
    (ht : Valid cs t) :
    let r := concat profile cs e t
    Sound profile r.1 ∧ r.2 < r.1.length ∧ cs.length ≤ r.1.length ∧
      (∀ p, Valid cs p → read r.1 p = read cs p) ∧
      (read r.1 (some r.2)).map profile = profile e :: (read cs t).map profile ∧
      ((r.1 = cs ∧ r.2 < cs.length) ∨
        (r.1.length = cs.length + 1 ∧ r.2 = cs.length ∧ read r.1 (some r.2) = e :: read cs t)) := by
  intro r
  cases hf : find profile (profile e) t cs with
  | some i =>
    have hr : r = (cs, i) := by simp only [r, concat, hf]
    obtain ⟨-, e', he', hread⟩ := read_find hs hf
    rw [hr]
    refine ⟨hs, find_lt hf, Nat.le_refl _, fun _ _ => rfl, ?_, .inl ⟨rfl, find_lt hf⟩⟩
    rw [hread, List.map_cons, he']
  | none =>
    have hr : r = (⟨e, t⟩ :: cs, cs.length) := by simp only [r, concat, hf]
    rw [hr]
    refine ⟨⟨hs, ht, hf⟩, by simp, by simp, fun _ hp => read_old hp, by simp, .inr ⟨rfl, rfl, ?_⟩⟩
    rw [read_new]

/-! ### Histories -/

/-- The invariant of a factory after a history. -/
structure Inv (profile : α → β) (h : List (Cell α)) (s : Store α) : Prop where
  sound : Sound profile s.cells
  length : s.ptrs.length = h.length
  valid : ∀ p, Valid s.cells (s.list p)
  made : ∀ i < s.cells.length, ∃ k < h.length, s.list (some k) = some i
  profiles : ∀ p, (read s.cells (s.list p)).map profile = (read h p).map profile

theorem list_new (cs : List (Cell α)) (i : ℕ) (ptrs : List ℕ) :
    (Store.mk cs (i :: ptrs)).list (some ptrs.length) = some i := by
  simp [Store.list]

theorem list_old (cs ds : List (Cell α)) (i : ℕ) {ptrs : List ℕ} {p : Option ℕ}
    (h : p ≠ some ptrs.length) :
    (Store.mk cs (i :: ptrs)).list p = (Store.mk ds ptrs).list p := by
  cases p with
  | none => rfl
  | some k => exact nth_old fun hk => h (by rw [hk])

/-- The path of an add that is not the newest. -/
theorem read_add {a : Cell α} {as : List (Cell α)} {p : Option ℕ} (h : p ≠ some as.length) :
    read (a :: as) p = read as p := by
  cases p with
  | none => simp
  | some k => rw [read, if_neg fun hk => h (by rw [hk])]

/-- **The factory's invariant** holds after every history. -/
theorem run_inv : ∀ h : List (Cell α), Inv profile h (run profile h)
  | [] => by
    have hlist : ∀ p, (run profile []).list p = none := by rintro (_ | k) <;> rfl
    refine ⟨trivial, rfl, fun p i hi => ?_, fun i hi => absurd hi (Nat.not_lt_zero i), fun p => ?_⟩
    · rw [hlist] at hi
      cases hi
    · rw [hlist]
      cases p <;> rfl
  | a :: as => by
    have ih := run_inv as
    obtain ⟨hs, hlt, hle, hold, hnew, hcase⟩ := concat_spec ih.sound a.head (ih.valid a.tail)
    rw [run]
    generalize hr : concat profile (run profile as).cells a.head ((run profile as).list a.tail) = r
    rw [hr] at hs hlt hle hold hnew hcase
    have hlast : ∀ {p}, p ≠ some as.length →
        (Store.mk r.1 (r.2 :: (run profile as).ptrs)).list p = (run profile as).list p := fun h =>
      list_old _ _ _ (by rwa [ih.length])
    have hfirst : (Store.mk r.1 (r.2 :: (run profile as).ptrs)).list (some as.length) = some r.2 := by
      rw [← ih.length, list_new]
    refine ⟨hs, by simp [ih.length], fun p => ?_, fun i hi => ?_, fun p => ?_⟩
    · by_cases hp : p = some as.length
      · rw [hp, hfirst]
        exact valid_some hlt
      · rw [hlast hp]
        exact fun i hi => Nat.lt_of_lt_of_le (ih.valid p i hi) hle
    · change i < r.1.length at hi
      rcases Nat.lt_or_ge i (run profile as).cells.length with h | h
      · obtain ⟨k, hk, hki⟩ := ih.made i h
        refine ⟨k, by simp only [List.length_cons]; omega, ?_⟩
        rw [hlast (fun he => by cases he; omega), hki]
      · refine ⟨as.length, by simp, ?_⟩
        rw [hfirst]
        rcases hcase with ⟨h1, -⟩ | ⟨h1, h2, -⟩
        · rw [h1] at hi
          omega
        · congr 1
          omega
    · by_cases hp : p = some as.length
      · rw [hp, hfirst, hnew, ih.profiles, read_new, List.map_cons]
      · rw [hlast hp, hold _ (ih.valid p), ih.profiles, read_add hp]

/-- Adds whose paths have the same profiles have the same path. -/
def Separated (profile : α → β) (h : List (Cell α)) : Prop :=
  ∀ j < h.length, ∀ k < h.length,
    (read h (some j)).map profile = (read h (some k)).map profile → read h (some j) = read h (some k)

omit [DecidableEq β] in
theorem Separated.tail {a : Cell α} {as : List (Cell α)} (h : Separated profile (a :: as)) :
    Separated profile as := by
  intro j hj k hk heq
  have hj' : some j ≠ some as.length := fun he => by cases he; omega
  have hk' : some k ≠ some as.length := fun he => by cases he; omega
  have hpath := h j (Nat.lt_succ_of_lt hj) k (Nat.lt_succ_of_lt hk)
  rw [read_add hj', read_add hk'] at hpath
  exact hpath heq

theorem read_back_of_separated : ∀ {h : List (Cell α)}, Separated profile h → ∀ p,
    read (run profile h).cells ((run profile h).list p) = read h p
  | [], _, p => by cases p <;> rfl
  | a :: as, hsep, p => by
    have ih : Inv profile as (run profile as) := run_inv as
    have hread := read_back_of_separated hsep.tail
    obtain ⟨hs, hlt, hle, hold, hnew, hcase⟩ := concat_spec ih.sound a.head (ih.valid a.tail)
    rw [run]
    generalize hr : concat profile (run profile as).cells a.head ((run profile as).list a.tail) = r
    rw [hr] at hs hlt hle hold hnew hcase
    by_cases hp : p = some as.length
    · subst hp
      have hfirst : (Store.mk r.1 (r.2 :: (run profile as).ptrs)).list (some as.length) = some r.2 := by
        rw [← ih.length, list_new]
      rw [hfirst]
      rcases hcase with ⟨h1, h2⟩ | ⟨-, -, h1⟩
      · -- The cell is an older add's: its path has the same profiles.
        obtain ⟨j, hj, hji⟩ := ih.made r.2 h2
        have hj' : some j ≠ some as.length := fun he => by cases he; omega
        have hcell : read r.1 (some r.2) = read (a :: as) (some j) := by
          rw [h1, ← hji, hread, read_add hj']
        rw [hcell]
        refine hsep j (Nat.lt_succ_of_lt hj) as.length (Nat.lt_succ_self _) ?_
        rw [← hcell, hnew, hread, read_new, List.map_cons]
      · rw [h1, hread, read_new]
    · rw [list_old _ (run profile as).cells _ (by rwa [ih.length]), hold _ (ih.valid p), hread p,
        read_add hp]

/-- **When lists keep what was added.** Reading back every list an add
returned gives the path that was added exactly if adds whose paths have the
same profiles have the same path. -/
theorem reads_back_iff (h : List (Cell α)) :
    (∀ k < h.length, read (run profile h).cells ((run profile h).list (some k)) = read h (some k)) ↔
      Separated profile h := by
  constructor
  · intro hread j hj k hk heq
    have hinv : Inv profile h (run profile h) := run_inv h
    have hptr := read_injective hinv.sound (hinv.valid (some j)) (hinv.valid (some k))
      (by rw [hinv.profiles, hinv.profiles, heq])
    rw [← hread j hj, ← hread k hk, hptr]
  · exact fun hsep k _ => read_back_of_separated hsep (some k)

end

end HashCons
