/-
# Locks along a path

The checker of locks compresses the lock state to a flag, the last use of a
lock. Against the set of mutexes that are locked and not yet unlocked, the flag
is wrong exactly for a call whose last lock operation unlocks one mutex while
another stays locked (`tracks_iff`). Both values of the flag are contexts like
any other, so what is reported is the use under a lock where most sites are
used without one (`accuses_unlocked_iff`).

Key definitions: `ThreadSafetyChecker.seen`, `ThreadSafetyChecker.held`,
`ThreadSafetyChecker.Tracks`, `ThreadSafetyChecker.Major`.
Key theorems: `ThreadSafetyChecker.mem_held`, `ThreadSafetyChecker.last_op`,
`ThreadSafetyChecker.tracks_iff`, `ThreadSafetyChecker.accuses_unlocked_iff`.
-/
import Apisan.Check.Reports

namespace Apisan

open Python

namespace ThreadSafetyChecker

/-! ### The mutexes that are held -/

/-- The argument text of a call: all that follows the first parenthesis. -/
def argumentText (text : String) : String :=
  String.ofList ((text.toList.dropWhile (· != '(')).drop 1)

/-- What an event is for the checker: for a call with a text, its type and its
argument text. -/
def seen : Event → Option (CallType × String)
  | .call ⟨some (some text), code⟩ =>
    (matchCall ⟨some (some text), code⟩).toOption.map fun type => (type, argumentText text)
  | _ => none

/-- The mutexes held after an event. -/
def hold (mutexes : Finset String) (event : Event) : Finset String :=
  match seen event with
  | some (.lock, mutex) => insert mutex mutexes
  | some (.unlock, mutex) => mutexes.erase mutex
  | _ => mutexes

/-- The mutexes held after the events of a path so far. -/
def held (events : List Event) : Finset String := events.foldl hold ∅

/-- A call that is neither a lock nor an unlock. -/
def Normal (event : Event) : Prop := ∃ text, seen event = some (.other, text)

/-- An event that neither locks nor unlocks. -/
def Neutral (event : Event) : Prop := ∀ type mutex, seen event = some (type, mutex) → type = .other

theorem held_concat (events : List Event) (event : Event) :
    held (events ++ [event]) = hold (held events) event := by
  rw [held, List.foldl_append]
  rfl

theorem hold_neutral {event : Event} (h : Neutral event) (mutexes : Finset String) :
    hold mutexes event = mutexes := by
  unfold hold
  cases hseen : seen event with
  | none => rfl
  | some x =>
    obtain ⟨type, mutex⟩ := x
    have htype : type = .other := h type mutex hseen
    rw [htype]

theorem held_append_neutral (events : List Event) : ∀ {rest : List Event}, (∀ x ∈ rest, Neutral x) →
    held (events ++ rest) = held events := by
  intro rest
  induction rest using List.reverseRecOn with
  | nil => simp
  | append_singleton rest x ih =>
    intro h
    rw [List.forall_mem_append, List.forall_mem_singleton] at h
    rw [← List.append_assoc, held_concat, hold_neutral h.2, ih h.1]

/-- **What is held**: the mutexes with a lock and no unlock after it. -/
theorem mem_held {mutex : String} {events : List Event} : mutex ∈ held events ↔
    ∃ l₁ event l₂, events = l₁ ++ event :: l₂ ∧ seen event = some (.lock, mutex) ∧
      ∀ x ∈ l₂, seen x ≠ some (.unlock, mutex) := by
  induction events using List.reverseRecOn with
  | nil => simp [held]
  | append_singleton events x ih =>
    have hmem : mutex ∈ hold (held events) x ↔
        seen x = some (.lock, mutex) ∨ (mutex ∈ held events ∧ seen x ≠ some (.unlock, mutex)) := by
      unfold hold
      split
      · rename_i m hseen
        simp [hseen, eq_comm]
      · rename_i m hseen
        simp [hseen, eq_comm, and_comm]
      · rename_i hlock hunlock
        rw [or_iff_right (hlock mutex), and_iff_left (hunlock mutex)]
    rw [held_concat, hmem, ih]
    constructor
    · rintro (hlock | ⟨⟨l₁, e, l₂, rfl, he, hafter⟩, hx⟩)
      · exact ⟨events, x, [], rfl, hlock, by simp⟩
      · refine ⟨l₁, e, l₂ ++ [x], by simp, he, ?_⟩
        rw [List.forall_mem_append, List.forall_mem_singleton]
        exact ⟨hafter, hx⟩
    · rintro ⟨l₁, e, l₂, heq, he, hafter⟩
      rcases List.eq_nil_or_concat l₂ with rfl | ⟨l, y, rfl⟩
      · obtain ⟨-, hxe⟩ := List.append_inj' heq rfl
        cases hxe
        exact .inl he
      · rw [List.concat_eq_append, ← List.cons_append, ← List.append_assoc] at heq
        obtain ⟨rfl, hxy⟩ := List.append_inj' heq rfl
        cases hxy
        rw [List.concat_eq_append, List.forall_mem_append, List.forall_mem_singleton] at hafter
        exact .inr ⟨⟨l₁, e, l, rfl, he, hafter.1⟩, hafter.2⟩

/-! ### The flag -/

/-- The flag after an event. -/
def flagStep (mutex : Bool) (event : Event) : Bool :=
  match seen event with
  | some (.lock, _) => true
  | some (.unlock, _) => false
  | _ => mutex

/-- The flag after the events of a path so far. -/
def flag (events : List Event) : Bool := events.foldl flagStep false

/-- The use of an event with the flag before it. -/
def use (mutex : Bool) : Event → List (Add (Option String) Bool Code)
  | .call ⟨some (some text), some code⟩ =>
    match matchCall ⟨some (some text), some code⟩, CallAttributes.callName ⟨some (some text), some code⟩ with
    | .ok .other, .ok name => [⟨name, some mutex, code⟩]
    | _, _ => []
  | _ => []

theorem flag_concat (events : List Event) (event : Event) :
    flag (events ++ [event]) = flagStep (flag events) event := by
  rw [flag, List.foldl_append]
  rfl

/-- **What one event does**, if its attributes are there. -/
theorem processEvent_ok {s s' : Bool × List (Add (Option String) Bool Code)} {event : Event} :
    processEvent s event = .ok s' ↔
      HasAttributes event ∧ s' = (flagStep s.1 event, s.2 ++ use s.1 event) := by
  unfold processEvent flagStep use seen
  cases event with
  | call a =>
    obtain ⟨text, code⟩ := a
    rcases text with _ | _ | text
    · simp [isCall, getAttribute, HasAttributes, bind, Except.bind]
    · simp [isCall, getAttribute, HasAttributes, bind, Except.bind, eq_comm]
    · obtain ⟨name, hname⟩ : ∃ name, CallAttributes.callName ⟨some (some text), code⟩ = .ok name := ⟨_, rfl⟩
      obtain ⟨type, htype⟩ : ∃ type, matchCall ⟨some (some text), code⟩ = .ok type := by
        unfold matchCall
        rw [hname, ok_bind]
        split_ifs
        · exact ⟨_, rfl⟩
        · exact ⟨_, rfl⟩
        · exact ⟨_, rfl⟩
      have hcall : isCall (.call ⟨some (some text), code⟩) = .ok (some ⟨some (some text), code⟩) := rfl
      rw [hcall, ok_bind]
      cases code with
      | none => simp [htype, hname, getAttribute, HasAttributes, bind, Except.bind]
      | some code => cases type <;>
          simp [htype, hname, getAttribute, HasAttributes, Except.toOption, eq_comm]
  | _ => simp [isCall, HasAttributes, eq_comm]

theorem use_normal {event : Event} (hnormal : Normal event) (hattributes : HasAttributes event) :
    ∃ name code, ∀ mutex, use mutex event = [⟨name, some mutex, code⟩] := by
  obtain ⟨text, hseen⟩ := hnormal
  cases event with
  | call a =>
    obtain ⟨t, code⟩ := a
    rcases t with _ | _ | t
    · cases hseen
    · cases hseen
    · obtain ⟨code, rfl⟩ : ∃ c, code = some c := Option.ne_none_iff_exists'.mp (hattributes.2 (by simp))
      obtain ⟨name, hname⟩ : ∃ name, CallAttributes.callName ⟨some (some t), some code⟩ = .ok name := ⟨_, rfl⟩
      have htype : matchCall ⟨some (some t), some code⟩ = .ok .other := by
        have hseen : (matchCall ⟨some (some t), some code⟩).toOption.map
            (fun type => (type, argumentText t)) = some (.other, text) := hseen
        cases hmatch : matchCall ⟨some (some t), some code⟩ with
        | error e =>
          rw [hmatch] at hseen
          cases hseen
        | ok type =>
          rw [hmatch] at hseen
          cases hseen
          rfl
      refine ⟨name, code, fun mutex => ?_⟩
      show (match matchCall ⟨some (some t), some code⟩, CallAttributes.callName ⟨some (some t), some code⟩ with
        | .ok .other, .ok name => [⟨name, some mutex, code⟩]
        | _, _ => []) = [(⟨name, some mutex, code⟩ : Add (Option String) Bool Code)]
      rw [htype, hname]
  | _ => cases hseen

theorem flag_append_neutral (events : List Event) : ∀ {rest : List Event}, (∀ x ∈ rest, Neutral x) →
    flag (events ++ rest) = flag events := by
  intro rest
  induction rest using List.reverseRecOn with
  | nil => simp
  | append_singleton rest x ih =>
    intro h
    rw [List.forall_mem_append, List.forall_mem_singleton] at h
    have hstep : ∀ mutex, flagStep mutex x = mutex := fun mutex => by
      unfold flagStep
      cases hseen : seen x with
      | none => rfl
      | some y =>
        obtain ⟨type, m⟩ := y
        have htype : type = .other := h.2 type m hseen
        rw [htype]
    rw [← List.append_assoc, flag_concat, hstep, ih h.1]

/-! ### A path -/

theorem run_concat {events : List Event} {event : Event}
    {s s' : Bool × List (Add (Option String) Bool Code)} :
    (events ++ [event]).foldlM processEvent s = .ok s' ↔
      ∃ t, events.foldlM processEvent s = .ok t ∧ HasAttributes event ∧
        s' = (flagStep t.1 event, t.2 ++ use t.1 event) := by
  have hbind : (events ++ [event]).foldlM processEvent s =
      events.foldlM processEvent s >>= fun t => processEvent t event := by
    rw [List.foldlM_append]
    refine congrArg (_ >>= ·) (funext fun t => ?_)
    exact bind_pure _
  rw [hbind, bind_eq_ok]
  exact exists_congr fun t => and_congr_right fun _ => processEvent_ok

/-- The flag that the events leave, if nothing raises. -/
theorem run_ok {events : List Event} {s : Bool × List (Add (Option String) Bool Code)} :
    events.foldlM processEvent (false, []) = .ok s →
      (∀ x ∈ events, HasAttributes x) ∧ s.1 = flag events := by
  induction events using List.reverseRecOn generalizing s with
  | nil =>
    intro h
    cases h
    exact ⟨by simp, rfl⟩
  | append_singleton events x ih =>
    intro h
    obtain ⟨t, ht, hx, rfl⟩ := run_concat.mp h
    obtain ⟨hattributes, hflag⟩ := ih ht
    rw [List.forall_mem_append, List.forall_mem_singleton, flag_concat, hflag]
    exact ⟨⟨hattributes, hx⟩, rfl⟩

theorem exists_run {events : List Event} : (∀ x ∈ events, HasAttributes x) →
    ∃ s, events.foldlM processEvent (false, []) = .ok s := by
  induction events using List.reverseRecOn with
  | nil => exact fun _ => ⟨_, rfl⟩
  | append_singleton events x ih =>
    intro h
    rw [List.forall_mem_append, List.forall_mem_singleton] at h
    obtain ⟨t, ht⟩ := ih h.1
    exact ⟨_, run_concat.mpr ⟨t, ht, h.2, rfl⟩⟩

/-- **What a call is recorded with**: the flag that the events before it
leave. -/
theorem processPath_concat {events : List Event} {event : Event} {cmgr : Option ConstraintMgr}
    {adds : List (Add (Option String) Bool Code)} (hnormal : Normal event)
    (h : processPath ⟨events ++ [event], cmgr⟩ = .ok adds) :
    ∃ before name code, adds = before ++ [⟨name, some (flag events), code⟩] := by
  obtain ⟨s, hs, hadds⟩ := bind_eq_ok.mp h
  cases hadds
  obtain ⟨t, ht, hattributes, rfl⟩ := run_concat.mp hs
  obtain ⟨-, hflag⟩ := run_ok ht
  obtain ⟨name, code, huse⟩ := use_normal hnormal hattributes
  exact ⟨t.2, name, code, by rw [huse, hflag]⟩

theorem exists_processPath {events : List Event} (cmgr : Option ConstraintMgr)
    (h : ∀ x ∈ events, HasAttributes x) : ∃ adds, processPath ⟨events, cmgr⟩ = .ok adds := by
  obtain ⟨s, hs⟩ := exists_run h
  exact ⟨s.2, bind_eq_ok.mpr ⟨s, hs, rfl⟩⟩

theorem attributes_of_processPath {path : Path} {adds : List (Add (Option String) Bool Code)}
    (h : processPath path = .ok adds) : ∀ x ∈ path.events, HasAttributes x := by
  obtain ⟨s, hs, -⟩ := bind_eq_ok.mp h
  exact (run_ok hs).1

/-- The checker tracks the lock state: each call, at the time the uses of the
events up to it are added, is recorded as locked exactly if a mutex is held. -/
def Tracks (path : Path) : Prop :=
  ∀ before event after, path.events = before ++ event :: after → Normal event →
    ∀ adds, processPath ⟨before ++ [event], path.cmgr⟩ = .ok adds →
      ((∃ earlier name code, adds = earlier ++ [⟨name, some true, code⟩]) ↔ (held before).Nonempty)

/-- Wherever an unlock is the last operation on a lock before a call, it leaves
no mutex locked. -/
def ReleasesLast (path : Path) : Prop :=
  ∀ before unlock between event after mutex,
    path.events = before ++ unlock :: (between ++ event :: after) →
    (∀ x ∈ before ++ unlock :: (between ++ [event]), HasAttributes x) →
    seen unlock = some (.unlock, mutex) → (∀ x ∈ between, Neutral x) → Normal event →
    held (before ++ [unlock]) = ∅

theorem recorded_iff {adds earlier : List (Add (Option String) Bool Code)} {name : Option String}
    {mutex : Bool} {code : Code} (h : adds = earlier ++ [⟨name, some mutex, code⟩]) :
    (∃ earlier name code, adds = earlier ++ [⟨name, some true, code⟩]) ↔ mutex = true := by
  constructor
  · rintro ⟨earlier', name', code', h'⟩
    obtain ⟨-, hlast⟩ := List.append_inj' (h.symm.trans h') rfl
    cases hlast
    rfl
  · rintro rfl
    exact ⟨earlier, name, code, h⟩

/-- **The last operation decides the flag.** Without one the flag is off and
nothing is held; else both are as the last one left them. -/
theorem last_op (events : List Event) : (flag events = false ∧ held events = ∅) ∨
    ∃ before op between type mutex, events = before ++ op :: between ∧ (∀ x ∈ between, Neutral x) ∧
      seen op = some (type, mutex) ∧ held events = held (before ++ [op]) ∧
      ((type = .lock ∧ flag events = true) ∨ (type = .unlock ∧ flag events = false)) := by
  by_cases hop : ∃ x ∈ events, ¬ Neutral x
  · obtain ⟨op, before, between, rfl, hlock, hbetween⟩ := FirstSeen.exists_last hop
    have hneutral : ∀ x ∈ between, Neutral x := fun x hx => not_not.mp (hbetween x hx)
    obtain ⟨type, mutex, hseen, htype⟩ : ∃ type mutex, seen op = some (type, mutex) ∧ type ≠ .other := by
      unfold Neutral at hlock
      push Not at hlock
      exact hlock
    have happend : before ++ op :: between = (before ++ [op]) ++ between := by simp
    have hflag : flag (before ++ op :: between) = flagStep (flag before) op := by
      rw [happend, flag_append_neutral _ hneutral, flag_concat]
    have hheld : held (before ++ op :: between) = held (before ++ [op]) := by
      rw [happend, held_append_neutral _ hneutral]
    refine .inr ⟨before, op, between, type, mutex, rfl, hneutral, hseen, hheld, ?_⟩
    rw [hflag]
    unfold flagStep
    rw [hseen]
    cases type with
    | lock => exact .inl ⟨rfl, rfl⟩
    | unlock => exact .inr ⟨rfl, rfl⟩
    | other => exact absurd rfl htype
  · have hneutral : ∀ x ∈ events, Neutral x := fun x hx => not_not.mp fun h => hop ⟨x, hx, h⟩
    have hflag : flag ([] ++ events) = flag [] := flag_append_neutral [] hneutral
    have hheld : held ([] ++ events) = held [] := held_append_neutral [] hneutral
    exact .inl ⟨hflag, hheld⟩

/-- **When the checker tracks the lock state**: exactly on the paths where no
call follows an unlock that leaves a mutex locked, with no lock or unlock in
between. -/
theorem tracks_iff (path : Path) : Tracks path ↔ ReleasesLast path := by
  constructor
  · intro htracks before unlock between event after mutex hpath hattributes hunlock hbetween hnormal
    have happend : before ++ unlock :: (between ++ [event]) = (before ++ unlock :: between) ++ [event] := by
      simp
    rw [happend] at hattributes
    obtain ⟨adds, hadds⟩ := exists_processPath path.cmgr hattributes
    obtain ⟨earlier, name, code, hrecord⟩ := processPath_concat hnormal hadds
    have hiff := htracks (before ++ unlock :: between) event after (by rw [hpath]; simp) hnormal adds hadds
    rw [recorded_iff hrecord] at hiff
    -- the unlock is the last operation, so the flag is off
    have hcons : before ++ unlock :: between = (before ++ [unlock]) ++ between := by simp
    have hflag : flag (before ++ unlock :: between) = false := by
      rw [hcons, flag_append_neutral _ hbetween, flag_concat]
      unfold flagStep
      rw [hunlock]
    rw [hflag, hcons, held_append_neutral _ hbetween] at hiff
    rw [← Finset.not_nonempty_iff_eq_empty, ← hiff]
    exact Bool.false_ne_true
  · intro hreleases before event after hpath hnormal adds hadds
    obtain ⟨earlier, name, code, hrecord⟩ := processPath_concat hnormal hadds
    rw [recorded_iff hrecord]
    rcases last_op before with ⟨hflag, hheld⟩ | ⟨l, op, between, type, mutex, rfl, hbetween, hseen, hheld, htype⟩
    · rw [hflag, hheld]
      simp
    rcases htype with ⟨rfl, hflag⟩ | ⟨rfl, hflag⟩
    · -- a lock was taken last, and is held
      have hmem : mutex ∈ held (l ++ [op]) := mem_held.mpr ⟨l, op, [], rfl, hseen, by simp⟩
      exact iff_of_true hflag (hheld ▸ ⟨mutex, hmem⟩)
    · have hattributes : ∀ x ∈ l ++ op :: (between ++ [event]), HasAttributes x := by
        have hall := attributes_of_processPath hadds
        simpa using hall
      have hempty : held (l ++ [op]) = ∅ :=
        hreleases l op between event after mutex (by rw [hpath]; simp) hattributes hseen hbetween hnormal
      rw [hflag, hheld, hempty]
      simp

/-- A call after the unlock of the inner of two locks. -/
def nestedLocks : Path where
  events := ["pthread_mutex_lock(&a)", "pthread_mutex_lock(&b)", "pthread_mutex_unlock(&b)", "f()"].map
    fun text => .call ⟨some (some text), some (some "a.c:1")⟩
  cmgr := none

/-- Its call is recorded as not locked, while the outer mutex is held. -/
theorem nestedLocks_untracked : ¬ Tracks nestedLocks := by
  intro htracks
  have hnormal : Normal (.call ⟨some (some "f()"), some (some "a.c:1")⟩) := ⟨")", by decide +kernel⟩
  have hadds : processPath ⟨nestedLocks.events.take 3 ++ [.call ⟨some (some "f()"), some (some "a.c:1")⟩],
      nestedLocks.cmgr⟩ = .ok [⟨some "f", some false, some "a.c:1"⟩] := rfl
  have hiff := htracks (nestedLocks.events.take 3) _ [] rfl hnormal _ hadds
  have hheld : (held (nestedLocks.events.take 3)).Nonempty := ⟨"&a)", by decide +kernel⟩
  have hfalse : false = true := (recorded_iff (List.nil_append _).symm).mp (hiff.mpr hheld)
  cases hfalse

/-! ### Who is accused -/

section

variable {C : Type} [DecidableEq C] [SetOrder C]

/-- Every location of a context has a value of the flag. -/
def Flagged (c : Context (Option String) Bool C) : Prop :=
  ∀ f x, x ∈ c.total f → ∃ mutex, x ∈ c.codes f mutex

/-- Who `get_bugs` accuses: uses without a lock, for a majority under a lock,
exactly if no function qualifies without a lock alone. -/
theorem getBugs_accuse_iff {c : Context (Option String) Bool C} (h : c.Sound) (hflagged : Flagged c) :
    (∀ bugs, c.getBugs ThreadSafetyContext.keyBugs = .ok bugs → ∀ b ∈ bugs,
      b.code ∈ c.codes b.key false ∧ c.config.threshold ≤ share (c.total b.key) (c.codes b.key true)) ↔
      ∀ f, c.Qualifies f false → c.Qualifies f true := by
  obtain ⟨bugs, hbugs, -, hiff⟩ := Context.exists_reported_iff h true
  constructor
  · intro haccuse f hfalse
    by_contra htrue
    have hqualifies : ∀ v, c.Qualifies f v → v = false := fun v hv => by
      by_contra hne
      rw [eq_true_of_ne_false hne] at hv
      exact htrue hv
    -- a site that is always locked deviates
    have hsub : c.codes f false ⊂ c.total f :=
      Finset.ssubset_iff_subset_ne.mpr ⟨h.subset f false, hfalse.2.2⟩
    obtain ⟨x, hx, hnot⟩ := Finset.exists_of_ssubset hsub
    have hdev : c.Deviates f x := ⟨hx, ⟨false, hfalse⟩, fun v hv => (hqualifies v hv).symm ▸ hnot⟩
    obtain ⟨b, hb, rfl, rfl⟩ := (hiff f x).mpr hdev
    exact hnot (haccuse bugs hbugs b hb).1
  · intro hmajor bugs' hbugs' b hb
    cases hbugs.symm.trans hbugs'
    obtain ⟨htotal, ⟨v, hv⟩, hnot⟩ := (hiff b.key b.code).mp ⟨b, hb, rfl, rfl⟩
    have htrue : c.Qualifies b.key true := by
      cases v with
      | true => exact hv
      | false => exact hmajor b.key hv
    obtain ⟨mutex, hmem⟩ := hflagged b.key b.code htotal
    cases mutex with
    | true => exact absurd hmem (hnot true htrue)
    | false => exact ⟨hmem, htrue.2.1⟩

end

section

variable [SetOrder Code]

/-- The reports accuse sites that are used without a lock, where the share of
the sites with a lock reaches the threshold. -/
def AccusesUnlocked (config : Config) (ctxs : List (Context (Option String) Bool Code)) : Prop :=
  ∀ c bugs, Context.mergeAll ctxs = some c → ThreadSafetyChecker.merge ctxs = .ok (some bugs) →
    ∀ b ∈ bugs, b.code ∈ c.codes b.key false ∧
      config.threshold ≤ share (c.total b.key) (c.codes b.key true)

/-- Most sites of `f` are used with the flag, but not all. -/
def Major (config : Config) (trees : List (List Path)) (f : Option String) (mutex : Bool) : Prop :=
  let uses := trees.map (Checker.uses processPath)
  sitesOf uses f mutex ≠ ∅ ∧ sitesOf uses f mutex ≠ sites uses f ∧
    config.threshold ≤ share (sites uses f) (sitesOf uses f mutex)

omit [SetOrder Code] in
theorem value_of_run {events : List Event} {s : Bool × List (Add (Option String) Bool Code)} :
    events.foldlM processEvent (false, []) = .ok s → ∀ a ∈ s.2, ∃ mutex, a.value = some mutex := by
  induction events using List.reverseRecOn generalizing s with
  | nil =>
    intro h
    cases h
    simp
  | append_singleton events x ih =>
    intro h
    obtain ⟨t, ht, -, rfl⟩ := run_concat.mp h
    rw [List.forall_mem_append]
    refine ⟨ih ht, fun a ha => ?_⟩
    unfold use at ha
    split at ha
    · split at ha
      · rw [List.mem_singleton.mp ha]
        exact ⟨_, rfl⟩
      · cases ha
    · cases ha

omit [SetOrder Code] in
/-- The merged context of trees has a value of the flag for every location. -/
theorem flagged_of_holds {trees : List (List Path)} {c : Context (Option String) Bool Code}
    (h : c.Holds (trees.map (Checker.uses processPath))) : Flagged c := by
  intro f x hx
  rw [h.total, mem_sites] at hx
  obtain ⟨uses, huses, a, ha, hkey, hcode⟩ := hx
  obtain ⟨tree, -, rfl⟩ := List.mem_map.mp huses
  obtain ⟨path, -, adds, hadds, hmem⟩ := Checker.mem_uses.mp ha
  obtain ⟨s, hs, hok⟩ := bind_eq_ok.mp hadds
  cases hok
  obtain ⟨mutex, hvalue⟩ := value_of_run hs a hmem
  refine ⟨mutex, ?_⟩
  rw [h.codes, mem_sitesOf]
  exact ⟨_, huses, a, ha, hkey, hvalue, hcode⟩

omit [SetOrder Code] in
theorem qualifies_iff_major {config : Config} {trees : List (List Path)}
    {c : Context (Option String) Bool Code} (hconfig : c.config = config)
    (h : c.Holds (trees.map (Checker.uses processPath))) (hsound : c.Sound) (f : Option String) (mutex : Bool) :
    c.Qualifies f mutex ↔ Major config trees f mutex := by
  have hvalues : mutex ∈ c.values f ↔ c.codes f mutex ≠ ∅ :=
    ⟨hsound.nonempty f mutex, Context.mem_values_of_codes⟩
  unfold Context.Qualifies Major
  rw [hvalues, h.codes, h.total, hconfig]
  exact and_congr_right fun _ => and_comm

/-- Whom the merged context accuses. -/
theorem accuses_iff_qualifies {ctxs : List (Context (Option String) Bool Code)}
    {c : Context (Option String) Bool Code} (hmerge : Context.mergeAll ctxs = some c) (hsound : c.Sound)
    (hflagged : Flagged c) :
    AccusesUnlocked c.config ctxs ↔ ∀ f, c.Qualifies f false → c.Qualifies f true := by
  rw [← getBugs_accuse_iff hsound hflagged]
  constructor
  · intro haccuse bs hbs b hb
    have hbugs : ThreadSafetyChecker.merge ctxs = .ok (some (rank bs)) :=
      Deviant.merge_eq_some.mpr ⟨c, bs, hmerge, hbs, rfl⟩
    exact haccuse c (rank bs) hmerge hbugs b (mem_sortedByScore.mpr hb)
  · intro haccuse c' bugs hc' hbugs b hb
    cases hmerge.symm.trans hc'
    obtain ⟨c', bs, hc', hbs, rfl⟩ := Deviant.merge_eq_some.mp hbugs
    cases hmerge.symm.trans hc'
    exact haccuse bs hbs b (mem_sortedByScore.mp hb)

/-- **Whom the checker of locks accuses.** Its reports are sites used without a
lock of functions mostly used with one, exactly if every function that is
mostly used without a lock is mostly used with one as well. -/
theorem accuses_unlocked_iff {config : Config} {trees : List (List Path)}
    {ctxs : List (Context (Option String) Bool Code)}
    (hprocess : Checker.Processed processPath config trees ctxs) :
    AccusesUnlocked config ctxs ↔ ∀ f, Major config trees f false → Major config trees f true := by
  rw [Context.ofTrees_of_processed hprocess]
  rcases Context.mergeAll_ofTrees config (trees.map (Checker.uses processPath)) with
    ⟨hempty, hnone⟩ | ⟨c, hsome, hconfig, hholds⟩
  · -- without a tree nothing is used, and nothing reported
    refine iff_of_true (fun c bugs hc => ?_) fun f hf => ?_
    · rw [hnone] at hc
      cases hc
    · unfold Major at hf
      rw [hempty] at hf
      exact absurd rfl hf.1
  · have hiff := accuses_iff_qualifies hsome hholds.sound (flagged_of_holds hholds)
    have hmajor := qualifies_iff_major hconfig hholds hholds.sound
    simp only [hmajor, hconfig] at hiff
    exact hiff

end

/-- Calls of `f` at places in the code. -/
def callsOfF (codes : List String) : List Event :=
  codes.map fun code => .call ⟨some (some "f()"), some (some code)⟩

/-- The call that takes the lock. -/
def takesLock : Event := .call ⟨some (some "pthread_mutex_lock(&m)"), some (some "a.c:5")⟩

/-- Of five sites of `f`, four are used with the lock, as in the sample. -/
def mostlyLocked : Path where
  events := callsOfF ["a.c:1"] ++ [takesLock] ++ callsOfF ["a.c:6", "a.c:7", "a.c:8", "a.c:9"]
  cmgr := none

/-- Of five sites of `f`, one is used with the lock. -/
def mostlyUnlocked : Path where
  events := callsOfF ["a.c:1", "a.c:2", "a.c:3", "a.c:4"] ++ [takesLock] ++ callsOfF ["a.c:6"]
  cmgr := none

theorem processed_singleton (path : Path) (h : ∀ x ∈ path.events, HasAttributes x) :
    Checker.Processed processPath ⟨4 / 5⟩ [[path]]
      [(Context.new ⟨4 / 5⟩).addAll (Checker.uses processPath [path])] := by
  obtain ⟨adds, hadds⟩ := exists_processPath path.cmgr h
  exact .cons (Checker.process_ok.mpr ⟨List.forall_mem_singleton.mpr ⟨adds, hadds⟩, rfl⟩) .nil

instance (config : Config) (trees : List (List Path)) (f : Option String) (mutex : Bool) :
    Decidable (Major config trees f mutex) :=
  inferInstanceAs (Decidable (_ ∧ _ ∧ _))

/-- Most sites use the lock, so the one that does not is accused. -/
theorem accuses_mostlyLocked :
    let _ : SetOrder Code := ⟨Finset.toList, fun _ _ => Finset.mem_toList, Finset.nodup_toList⟩
    AccusesUnlocked ⟨4 / 5⟩ [(Context.new ⟨4 / 5⟩).addAll (Checker.uses processPath [mostlyLocked])] := by
  intro _
  refine (accuses_unlocked_iff (processed_singleton mostlyLocked (by decide))).mpr fun f hf => ?_
  have hkeys : ∀ a ∈ Checker.uses processPath [mostlyLocked], a.key = some "f" := by decide +kernel
  obtain ⟨x, hx⟩ := Finset.nonempty_iff_ne_empty.mpr hf.1
  obtain ⟨uses, huses, a, ha, hkey, -⟩ := mem_sitesOf.mp hx
  rw [List.map_singleton, List.mem_singleton] at huses
  rw [huses] at ha
  rw [← hkey, hkeys a ha] at hf
  exact absurd hf (by decide +kernel)

/-- Most sites do not use the lock, and the one that does is accused. -/
theorem mostlyUnlocked_accused :
    let _ : SetOrder Code := ⟨Finset.toList, fun _ _ => Finset.mem_toList, Finset.nodup_toList⟩
    ∃ ctxs, Checker.Processed processPath ⟨4 / 5⟩ [[mostlyUnlocked]] ctxs ∧ ¬ AccusesUnlocked ⟨4 / 5⟩ ctxs := by
  intro _
  have hprocessed := processed_singleton mostlyUnlocked (by decide)
  refine ⟨_, hprocessed, fun haccuse => ?_⟩
  obtain ⟨c, hc⟩ : ∃ c, (Context.new ⟨4 / 5⟩).addAll (Checker.uses processPath [mostlyUnlocked]) = c := ⟨_, rfl⟩
  have hholds : c.Holds ([[mostlyUnlocked]].map (Checker.uses processPath)) :=
    hc ▸ Context.foldl_ofTrees_holds ⟨4 / 5⟩ (Checker.uses processPath [mostlyUnlocked]) []
  have hconfig : c.config = ⟨4 / 5⟩ := by rw [← hc, Context.addAll_config]; rfl
  rw [hc, ← hconfig, accuses_iff_qualifies rfl hholds.sound (flagged_of_holds hholds)] at haccuse
  have hmajor := qualifies_iff_major hconfig hholds hholds.sound
  simp only [hmajor] at haccuse
  have hfalse : Major ⟨4 / 5⟩ [[mostlyUnlocked]] (some "f") false := by decide +kernel
  have htrue : ¬ Major ⟨4 / 5⟩ [[mostlyUnlocked]] (some "f") true := by decide +kernel
  exact htrue (haccuse (some "f") hfalse)

end ThreadSafetyChecker

end Apisan
