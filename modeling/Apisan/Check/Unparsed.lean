/-
# Calls that do not parse

A text that the grammar lacks leaves a call event without a call. The checker
of arguments passes over such an event, and its stores are those of the tree
without it. The other three read the arguments or the name of the call all the
same and raise, so they process a tree exactly if all its calls parse
(`skips_iff`).

Key definitions: `unparsed`, `Path.dropUnparsed`, `CallChecker.Skips`.
Key theorems: `ArgChecker.processPath_dropUnparsed`, `CausalityChecker.readable_iff`,
`skips_iff`.
-/
import Apisan.Check.Causality

namespace Apisan

open Python

/-- A call event with a text that is no call. -/
def unparsed (event : Event) : Bool :=
  match isCall event with
  | .ok (some a) =>
    match a.call with
    | .ok none => true
    | _ => false
  | _ => false

/-- The path without its calls that do not parse. -/
def Path.dropUnparsed (path : Path) : Path :=
  { path with events := path.events.filter fun event => !unparsed event }

/-- The path is as the reader makes it: its call events have their attributes,
and its last node has constraints. -/
def Path.WellFormed (path : Path) : Prop :=
  (∀ event ∈ path.events, HasAttributes event) ∧ path.cmgr ≠ none

/-- All calls of the tree parse. -/
def AllParse (tree : List Path) : Prop :=
  ∀ path ∈ tree, ∀ event ∈ path.events, unparsed event = false

/-- The checkers that look at the calls of a path, by name. -/
inductive CallChecker
  | args
  | fsb
  | intovfl
  | cpair
  deriving DecidableEq, Repr

/-- The tree is processed, and its context is that of the tree without the
calls that do not parse. -/
def SkipsUnparsed {K V : Type} (process : List Path → Except Error (Context K V Code)) (tree : List Path) :
    Prop :=
  ∃ c, process tree = .ok c ∧ process (tree.map Path.dropUnparsed) = .ok c

section

variable [StrHash] [SetOrder ℤ]

/-- What a checker does with the calls of a tree that do not parse. -/
def CallChecker.Skips (config : Config) (tree : List Path) : CallChecker → Prop
  | args => SkipsUnparsed (Checker.process ArgChecker.processPath config) tree
  | fsb => SkipsUnparsed (Checker.process FSBChecker.processPath config) tree
  | intovfl => SkipsUnparsed (Checker.process IntOvflChecker.processPath config) tree
  | cpair => SkipsUnparsed (CausalityChecker.process config) tree

end

/-! ### An event -/

/-- **How a call event is read.** It is passed over, or has no call, or has one;
with its attributes it has a location. -/
theorem event_cases {event : Event} (h : HasAttributes event) :
    (isCall event = .ok none ∧ unparsed event = false) ∨
    ∃ a code, isCall event = .ok (some a) ∧ a.code = some code ∧
      ((a.call = .ok none ∧ unparsed event = true) ∨
        ∃ name args, a.call = .ok (some (name, args)) ∧ unparsed event = false) := by
  cases event with
  | call a =>
    obtain ⟨text, code⟩ := a
    rcases text with _ | _ | text
    · exact absurd rfl h.1
    · exact .inl ⟨rfl, rfl⟩
    · obtain ⟨code, rfl⟩ : ∃ c, code = some c := Option.ne_none_iff_exists'.mp (h.2 (by simp))
      obtain ⟨call, hcall⟩ : ∃ call, CallAttributes.call ⟨some (some text), some code⟩ = .ok call := ⟨_, rfl⟩
      refine .inr ⟨_, code, rfl, rfl, ?_⟩
      have hunparsed : unparsed (.call ⟨some (some text), some code⟩) =
          match CallAttributes.call ⟨some (some text), some code⟩ with
          | .ok none => true
          | _ => false := rfl
      rw [hunparsed, hcall]
      rcases call with _ | ⟨name, args⟩
      · exact .inl ⟨rfl, rfl⟩
      · exact .inr ⟨name, args, rfl, rfl⟩
  | _ => exact .inl ⟨rfl, rfl⟩

theorem dropUnparsed_eq {path : Path} (h : ∀ event ∈ path.events, unparsed event = false) :
    path.dropUnparsed = path := by
  unfold Path.dropUnparsed
  rw [List.filter_eq_self.mpr fun event he => by rw [h event he]; rfl]

theorem map_dropUnparsed {tree : List Path} (h : AllParse tree) : tree.map Path.dropUnparsed = tree := by
  have hid : ∀ path ∈ tree, path.dropUnparsed = id path := fun path hpath => dropUnparsed_eq (h path hpath)
  rw [List.map_congr_left hid, List.map_id]

/-- A checker that processes just the trees whose calls parse skips no calls. -/
theorem skipsUnparsed_iff {K V : Type} {process : List Path → Except Error (Context K V Code)}
    {tree : List Path} (h : (∃ c, process tree = .ok c) ↔ AllParse tree) :
    SkipsUnparsed process tree ↔ AllParse tree := by
  constructor
  · rintro ⟨c, hc, -⟩
    exact h.mp ⟨c, hc⟩
  · intro hparse
    obtain ⟨c, hc⟩ := h.mpr hparse
    exact ⟨c, hc, by rw [map_dropUnparsed hparse, hc]⟩

/-- A checker that adds uses processes the trees whose paths it does. -/
theorem process_ok_iff {K V : Type} [DecidableEq K] [DecidableEq V] {config : Config} {tree : List Path}
    {processPath : Path → Except Error (List (Add K V Code))}
    (h : ∀ path ∈ tree, (∃ adds, processPath path = .ok adds) ↔
      ∀ event ∈ path.events, unparsed event = false) :
    (∃ c, Checker.process processPath config tree = .ok c) ↔ AllParse tree := by
  constructor
  · rintro ⟨c, hc⟩ path hpath
    exact (h path hpath).mp ((Checker.process_ok.mp hc).1 path hpath)
  · intro hparse
    exact ⟨_, Checker.process_ok.mpr ⟨fun path hpath => (h path hpath).mpr (hparse path hpath), rfl⟩⟩

theorem gather_ok_iff {α β : Type} {f : α → Except Error (List β)} {as : List α} :
    (∃ bs, gather f as = .ok bs) ↔ ∀ a ∈ as, ∃ b, f a = .ok b :=
  ⟨fun ⟨_, h⟩ => of_gather_ok h, gather_ok⟩

/-! ### The checkers -/

variable [StrHash]

namespace ArgChecker

theorem processEvent_ok {event : Event} (h : HasAttributes event) :
    (∃ adds, processEvent event = .ok adds) ∧ (unparsed event = true → processEvent event = .ok []) := by
  unfold processEvent
  rcases event_cases h with ⟨hcall, hparsed⟩ | ⟨a, code, hcall, hcode, ⟨hnone, -⟩ | ⟨name, args, hsome, hparsed⟩⟩
  · simp only [hcall, ok_bind]
    exact ⟨⟨[], rfl⟩, fun _ => trivial⟩
  · simp only [hcall, hnone, ok_bind]
    exact ⟨⟨[], rfl⟩, fun _ => trivial⟩
  · simp only [hcall, hsome, hcode, getAttribute, ok_bind]
    refine ⟨⟨_, rfl⟩, fun hunparsed => ?_⟩
    rw [hparsed] at hunparsed
    cases hunparsed

/-- **Calls that do not parse add nothing**, and do not raise. -/
theorem processPath_dropUnparsed {path : Path} (h : ∀ event ∈ path.events, HasAttributes event) :
    (∃ adds, processPath path = .ok adds) ∧ processPath path.dropUnparsed = processPath path := by
  refine ⟨gather_ok fun event he => (processEvent_ok (h event he)).1, ?_⟩
  refine gather_filter fun event he hdrop => ?_
  have hunparsed : unparsed event = true := by simpa using hdrop
  exact (processEvent_ok (h event he)).2 hunparsed

/-- The tree without its calls that do not parse is processed to the same
context. -/
theorem skips (config : Config) {tree : List Path} (h : ∀ path ∈ tree, path.WellFormed) :
    SkipsUnparsed (Checker.process processPath config) tree := by
  have hpath : ∀ path ∈ tree, (∃ adds, processPath path = .ok adds) ∧
      processPath path.dropUnparsed = processPath path := fun path hp =>
    processPath_dropUnparsed (h path hp).1
  have huses : Checker.uses processPath (tree.map Path.dropUnparsed) = Checker.uses processPath tree := by
    rw [Checker.uses, Checker.uses, List.flatMap_map]
    exact List.flatMap_congr fun path hp => by rw [(hpath path hp).2]
  refine ⟨_, Checker.process_ok.mpr ⟨fun path hp => (hpath path hp).1, rfl⟩, ?_⟩
  rw [Checker.process_ok, huses, List.forall_mem_map]
  refine ⟨fun path hp => ?_, rfl⟩
  rw [(hpath path hp).2]
  exact (hpath path hp).1

end ArgChecker

namespace FSBChecker

theorem processEvent_ok {event : Event} (h : HasAttributes event) :
    (∃ adds, processEvent event = .ok adds) ↔ unparsed event = false := by
  unfold processEvent
  rcases event_cases h with
    ⟨hcall, hparsed⟩ | ⟨a, code, hcall, hcode, ⟨hnone, hunparsed⟩ | ⟨name, args, hsome, hparsed⟩⟩
  · simp only [hcall, ok_bind]
    exact iff_of_true ⟨[], rfl⟩ hparsed
  · simp only [hcall, hnone, hcode, getAttribute, ok_bind, hunparsed]
    refine iff_of_false ?_ (by simp)
    rintro ⟨adds, hadds⟩
    cases hadds
  · simp only [hcall, hsome, hcode, getAttribute, ok_bind]
    exact iff_of_true ⟨_, rfl⟩ hparsed

theorem processPath_ok {path : Path} (h : path.WellFormed) :
    (∃ adds, processPath path = .ok adds) ↔ ∀ event ∈ path.events, unparsed event = false :=
  gather_ok_iff.trans (forall₂_congr fun event he => processEvent_ok (h.1 event he))

end FSBChecker

namespace IntOvflChecker

/-- With constraints to look up, an argument is checked without an exception. -/
theorem checkIntegerOverflow_ok (m : ConstraintMgr) (arg : Symbol) (limit : ℚ × ℚ) :
    ∃ t, checkIntegerOverflow (some m) arg limit = .ok t := by
  fun_induction checkIntegerOverflow (some m) arg limit with
  | case1 _ _ _ _ _ _ ih => exact ih
  | case2 => exact ⟨_, rfl⟩
  | case3 _ _ _ _ _ _ _ ih => exact ih
  | case4 => exact ⟨_, rfl⟩
  | case5 => exact ⟨_, rfl⟩
  | case6 =>
    rw [getConstraint, ok_bind]
    split
    · split_ifs
      · exact ⟨_, rfl⟩
      · exact ⟨_, rfl⟩
    · exact ⟨_, rfl⟩
    · split_ifs
      · exact ⟨_, rfl⟩
      · exact ⟨_, rfl⟩

theorem processArg_ok (m : ConstraintMgr) (name : Symbol) (code : Code) (x : Symbol × ℕ) :
    ∃ adds, processArg (some m) name code x = .ok adds := by
  unfold processArg
  split
  · obtain ⟨t, ht⟩ := checkIntegerOverflow_ok m x.1 intLimit
    rw [ht, ok_bind]
    split_ifs
    · exact ⟨_, rfl⟩
    · exact ⟨_, rfl⟩
  · exact ⟨_, rfl⟩

theorem processEvent_ok {m : ConstraintMgr} {event : Event} (h : HasAttributes event) :
    (∃ adds, processEvent (some m) event = .ok adds) ↔ unparsed event = false := by
  unfold processEvent
  rcases event_cases h with
    ⟨hcall, hparsed⟩ | ⟨a, code, hcall, hcode, ⟨hnone, hunparsed⟩ | ⟨name, args, hsome, hparsed⟩⟩
  · simp only [hcall, ok_bind]
    exact iff_of_true ⟨[], rfl⟩ hparsed
  · simp only [hcall, hnone, hcode, getAttribute, ok_bind, hunparsed]
    refine iff_of_false ?_ (by simp)
    rintro ⟨adds, hadds⟩
    cases hadds
  · simp only [hcall, hsome, hcode, getAttribute, ok_bind]
    exact iff_of_true (gather_ok fun x _ => processArg_ok m name code x) hparsed

theorem processPath_ok {path : Path} (h : path.WellFormed) :
    (∃ adds, processPath path = .ok adds) ↔ ∀ event ∈ path.events, unparsed event = false := by
  obtain ⟨hattributes, hcmgr⟩ := h
  obtain ⟨m, hm⟩ := Option.ne_none_iff_exists'.mp hcmgr
  unfold processPath
  rw [hm]
  exact gather_ok_iff.trans (forall₂_congr fun event he => processEvent_ok (hattributes event he))

end IntOvflChecker

namespace CausalityChecker

omit [StrHash] in
theorem readable_iff {path : Path} (h : path.WellFormed) :
    Readable path ↔ ∀ event ∈ path.events, unparsed event = false := by
  refine forall₂_congr fun event he => ?_
  unfold callOf
  rcases event_cases (h.1 event he) with
    ⟨hcall, hparsed⟩ | ⟨a, code, hcall, hcode, ⟨hnone, hunparsed⟩ | ⟨name, args, hsome, hparsed⟩⟩
  · simp only [hcall, ok_bind]
    exact iff_of_true ⟨none, rfl, nofun⟩ hparsed
  · simp only [hcall, hnone, getAttribute, ok_bind, hunparsed]
    refine iff_of_false ?_ (by simp)
    rintro ⟨call, hcall, -⟩
    cases hcall
  · simp only [hcall, hsome, getAttribute, ok_bind]
    refine iff_of_true ⟨_, rfl, fun x hx => ?_⟩ hparsed
    cases hx
    exact ⟨by rw [hcode]; simp, h.2⟩

end CausalityChecker

section

variable [SetOrder ℤ]

/-- The checkers that read every call process a tree only if all of them
parse. -/
theorem skips_iff_allParse (config : Config) {tree : List Path} (h : ∀ path ∈ tree, path.WellFormed)
    {a : CallChecker} (ha : a ≠ .args) : a.Skips config tree ↔ AllParse tree := by
  cases a with
  | args => exact absurd rfl ha
  | fsb => exact skipsUnparsed_iff (process_ok_iff fun path hpath => FSBChecker.processPath_ok (h path hpath))
  | intovfl => exact skipsUnparsed_iff (process_ok_iff fun path hpath => IntOvflChecker.processPath_ok (h path hpath))
  | cpair =>
    refine skipsUnparsed_iff ((CausalityChecker.process_spec config tree).1.trans ?_)
    exact forall₂_congr fun path hpath => CausalityChecker.readable_iff (h path hpath)

/-- **Who skips calls that do not parse**: the checker of arguments does; the
others process a tree only if all its calls parse. -/
theorem skips_iff (config : Config) {tree : List Path} (h : ∀ path ∈ tree, path.WellFormed)
    (a : CallChecker) : a.Skips config tree ↔ a = .args ∨ AllParse tree := by
  by_cases ha : a = .args
  · rw [ha]
    exact iff_of_true (ArgChecker.skips config h) (.inl rfl)
  · rw [or_iff_right ha]
    exact skips_iff_allParse config h ha

end

/-- A tree with a call that does not parse, after one that does. -/
def conditionalCall : List Path :=
  [⟨[.call ⟨some (some "f(x)"), some (some "a.c:1")⟩, .call ⟨some (some "g(x ? y : z)"), some (some "a.c:2")⟩,
    .eop], some .empty⟩]

omit [StrHash] in
theorem conditionalCall_wellFormed : ∀ path ∈ conditionalCall, path.WellFormed := by
  unfold conditionalCall
  rw [List.forall_mem_singleton]
  exact ⟨by decide, by simp⟩

omit [StrHash] in
/-- The checker of arguments passes over the second call. -/
theorem args_skips_conditionalCall :
    let _ : StrHash := ⟨fun s => s.length⟩
    let _ : SetOrder ℤ := ⟨Finset.toList, fun _ _ => Finset.mem_toList, Finset.nodup_toList⟩
    CallChecker.args.Skips ⟨4 / 5⟩ conditionalCall := by
  intro _ _
  exact (skips_iff ⟨4 / 5⟩ conditionalCall_wellFormed .args).mpr (.inl rfl)

omit [StrHash] in
/-- The other checkers raise. -/
theorem conditionalCall_raises :
    let _ : StrHash := ⟨fun s => s.length⟩
    let _ : SetOrder ℤ := ⟨Finset.toList, fun _ _ => Finset.mem_toList, Finset.nodup_toList⟩
    (∀ path ∈ conditionalCall, path.WellFormed) ∧
      ∀ a : CallChecker, a ≠ .args → ¬ a.Skips ⟨4 / 5⟩ conditionalCall := by
  intro _ _
  have hnot : ¬ AllParse conditionalCall := by
    intro hparse
    have hevents := hparse _ (List.mem_singleton_self _)
    revert hevents
    decide +kernel
  exact ⟨conditionalCall_wellFormed, fun a ha => by
    rw [skips_iff_allParse ⟨4 / 5⟩ conditionalCall_wellFormed ha]
    exact hnot⟩

end Apisan
