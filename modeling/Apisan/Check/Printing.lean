/-
# Printing reports

`BugReport.__str__` renders the context of a report as a list of intervals. The
checkers store intervals, symbols, booleans, pairs of them and members of an
enumeration there, and references make it read a configuration that none of
these has. So of all the reports of the checkers, those on return values
print, if their location is a text and its file can be read (`str_ok_iff`).

The file system, the text of a key and the rounding of a score are left open.

Key definitions: `humanizeRange`, `printLine`, `BugReport.str`,
`ReportingChecker.merge`, `Printable`.
Key theorems: `humanizeIntervals_ok`, `printLine_ok_iff`, `str_ok_iff`.
-/
import Apisan.Check.Condition
import Apisan.Check.Join
import Apisan.Check.Causality
import Apisan.Check.Formats

namespace Apisan

open Python

/-! ### Intervals -/

/-- `CONSTANTS`. -/
def constants : List (ℤ × String) :=
  [(-128, "INT8_MIN"), (128, "INT8_MAX"), (255, "UINT8_MAX"), (-32768, "INT16_MIN"),
    (32767, "INT16_MAX"), (65535, "UINT16_MAX"), (-2147483648, "INT32_MIN"), (2147483647, "INT32_MAX"),
    (4294967295, "UINT32_MAX"), (-9223372036854775808, "INT64_MIN"), (9223372036854775807, "INT64_MAX")]

/-- `parse_constant_type`. -/
def parseConstantType (k : String) : Except Error String :=
  match split '_' k with
  | [left, _] => .ok left
  | _ => .error .valueError

/-- `humanize_num`. -/
def humanizeNum (n : ℤ) : String := (constants.lookup n).getD (toString n)

/-- `humanize_ival`. -/
def humanizeIval (p : ℤ × ℤ) : String :=
  if p.1 = p.2 then humanizeNum p.1 else "[" ++ humanizeNum p.1 ++ "," ++ humanizeNum p.2 ++ "]"

/-- The last line of `humanize_range`. -/
def humanizeSet (r : List (ℤ × ℤ)) : String := "in \x7b" ++ ", ".intercalate (r.map humanizeIval) ++ "\x7d"

/-- `humanize_range`, on a tuple of intervals. -/
def humanizeIntervals : List (ℤ × ℤ) → Except Error String
  | [p] => .ok ("== " ++ humanizeIval p)
  | [(lo1, hi1), (lo2, hi2)] =>
    match constants.lookup lo1, constants.lookup hi2 with
    | some lo, some hi =>
      if hi1 + 2 = lo2 then do
        let t ← parseConstantType lo
        let u ← parseConstantType hi
        if t = u then .ok ("!= " ++ toString (hi1 + 1)) else .ok (humanizeSet [(lo1, hi1), (lo2, hi2)])
      else .ok (humanizeSet [(lo1, hi1), (lo2, hi2)])
    | _, _ => .ok (humanizeSet [(lo1, hi1), (lo2, hi2)])
  | r => .ok (humanizeSet r)

/-- The contexts of reports, as Python values. -/
inductive PyValue
  | intervals (r : List (ℤ × ℤ))
  | symbol (key : ℤ)
  | pair (a b : Bool)
  | bool (b : Bool)
  | chkType (t : IntOvflChkType)
  deriving DecidableEq, Repr

/-- `humanize_range`. A symbol, a boolean and a member of an enumeration have
no `len`, and the booleans of a pair do not unpack. -/
def humanizeRange : PyValue → Except Error String
  | .intervals r => humanizeIntervals r
  | .symbol _ => .error .typeError
  | .pair _ _ => .error .typeError
  | .bool _ => .error .typeError
  | .chkType _ => .error .typeError

/-- `self.ctx.config.reference`: no context has a configuration. -/
def PyValue.reference : PyValue → Except Error ℤ := fun _ => .error .attributeError

theorem parseConstantType_ok : ∀ x ∈ constants, (parseConstantType x.2).isOk = true := by decide +kernel

theorem lookup_constants {n : ℤ} {k : String} (h : constants.lookup n = some k) :
    ∃ t, parseConstantType k = .ok t := by
  obtain ⟨l₁, l₂, hsplit, -⟩ := List.lookup_eq_some_iff.mp h
  exact exists_eq_ok (parseConstantType_ok (n, k) (by rw [hsplit]; simp))

/-- **Intervals always print.** -/
theorem humanizeIntervals_ok (r : List (ℤ × ℤ)) : ∃ s, humanizeIntervals r = .ok s := by
  unfold humanizeIntervals
  split
  · exact ⟨_, rfl⟩
  · split
    · rename_i lo hi hlo hhi
      obtain ⟨t, ht⟩ := lookup_constants hlo
      obtain ⟨u, hu⟩ := lookup_constants hhi
      rw [ht, hu, ok_bind, ok_bind]
      split_ifs
      · exact ⟨_, rfl⟩
      · exact ⟨_, rfl⟩
      · exact ⟨_, rfl⟩
    · exact ⟨_, rfl⟩
  · exact ⟨_, rfl⟩

/-! ### Lines -/

/-- A text file: its lines, and what reading raises after them, if anything. -/
structure TextFile where
  lines : List String
  failure : Option Error

/-- What `print_line` asks of the file system. -/
structure FileSystem where
  pathExists : String → Bool
  openText : String → Except Error TextFile

/-- The match of a line with `# ([0-9]+) "([^"]+)".*`: a line number and a file
name. -/
def lineMark (line : String) : Option (ℤ × String) :=
  match line.toList with
  | '#' :: ' ' :: rest =>
    let digits := rest.takeWhile Char.isDigit
    match rest.dropWhile Char.isDigit with
    | ' ' :: '"' :: rest =>
      let name := rest.takeWhile (· != '"')
      if digits ≠ [] ∧ name ≠ [] ∧ (rest.dropWhile (· != '"')) ≠ [] then
        some (Nat.ofDigitChars 10 digits 0, String.ofList name)
      else none
    | _ => none
  | _ => none

/-- `os.path.basename`. -/
def basename (path : String) : String := String.ofList (path.toList.reverse.takeWhile (· != '/')).reverse

/-- The loop of `print_line` over the lines, with `counter`, `curr_line` and
`curr_fname`. -/
def findLine (origFname fname : String) (lineno : ℤ) : List String → ℤ → ℤ → String → Option String
  | [], _, _, _ => none
  | line :: lines, counter, currLine, currFname =>
    match lineMark line with
    | some (n, name) => findLine origFname fname lineno lines (counter + 1) n name
    | none =>
      if currFname = fname ∧ lineno = currLine then
        some (origFname ++ ":" ++ toString counter ++ ": " ++ line)
      else findLine origFname fname lineno lines (counter + 1) (currLine + 1) currFname

/-- The line of a location in a file. -/
def TextFile.line (file : TextFile) (origFname fname : String) (lineno : ℤ) : Option String :=
  findLine origFname fname lineno file.lines 1 1 (basename origFname)

/-- The parts of a location: a file, the name of a file in it, and a line. -/
def locationParts (encFilename : String) : Option (String × String × ℤ) :=
  match split ':' encFilename with
  | [origFname, fname, lineno] => (intText lineno).toOption.map fun n => (origFname, fname, n)
  | _ => none

/-- `print_line`. -/
def printLine (fs : FileSystem) : Code → Except Error (Option String)
  | none => .error .attributeError
  | some encFilename =>
    match locationParts encFilename with
    | none => .ok none
    | some (origFname, fname, lineno) =>
      if fs.pathExists origFname then do
        let file ← fs.openText origFname
        match file.line origFname fname lineno, file.failure with
        | some line, _ => .ok (some line)
        | none, none => .ok none
        | none, some e => .error e
      else .ok none

/-- The location is a text, and where it names a file that exists, what is read
of that file raises nothing. -/
def Printable (fs : FileSystem) (code : Code) : Prop :=
  ∃ encFilename, code = some encFilename ∧ ∀ origFname fname lineno,
    locationParts encFilename = some (origFname, fname, lineno) → fs.pathExists origFname = true →
      ∃ file, fs.openText origFname = .ok file ∧
        (file.failure = none ∨ file.line origFname fname lineno ≠ none)

/-- **When a location prints.** -/
theorem printLine_ok_iff (fs : FileSystem) (code : Code) :
    (∃ line, printLine fs code = .ok line) ↔ Printable fs code := by
  unfold Printable
  cases code with
  | none => exact iff_of_false (fun ⟨_, h⟩ => by cases h) fun ⟨_, h, _⟩ => by cases h
  | some encFilename =>
    simp only [Option.some.injEq, exists_eq_left', printLine]
    cases hparts : locationParts encFilename with
    | none => exact iff_of_true ⟨none, rfl⟩ fun _ _ _ h => by cases h
    | some parts =>
      obtain ⟨origFname, fname, lineno⟩ := parts
      by_cases hexists : fs.pathExists origFname = true
      · have hparts : (∀ o f l, some (origFname, fname, lineno) = some (o, f, l) → fs.pathExists o = true →
            ∃ file, fs.openText o = .ok file ∧ (file.failure = none ∨ file.line o f l ≠ none)) ↔
            ∃ file, fs.openText origFname = .ok file ∧
              (file.failure = none ∨ file.line origFname fname lineno ≠ none) := by
          constructor
          · exact fun h => h origFname fname lineno rfl hexists
          · intro h o f l heq _
            cases heq
            exact h
        rw [hparts]
        simp only [hexists, if_true, bind_eq_ok]
        constructor
        · rintro ⟨line, file, hopen, hline⟩
          refine ⟨file, hopen, ?_⟩
          by_contra hnot
          rw [not_or, not_not] at hnot
          obtain ⟨hfailure, hnone⟩ := hnot
          obtain ⟨e, he⟩ := Option.ne_none_iff_exists'.mp hfailure
          rw [hnone, he] at hline
          cases hline
        · rintro ⟨file, hopen, hread⟩
          cases hline : file.line origFname fname lineno with
          | some line => exact ⟨some line, file, hopen, by rw [hline]⟩
          | none =>
            have hfailure : file.failure = none := hread.resolve_right fun hne => hne hline
            exact ⟨none, file, hopen, by rw [hline, hfailure]⟩
      · refine iff_of_true ?_ fun o f l heq h => ?_
        · exact ⟨none, if_neg hexists⟩
        · cases heq
          exact absurd h hexists

/-! ### Reports -/

variable {K V : Type}

/-- The loop of `get_references`, from index `i`, over `n` references. -/
def joinReferences (n : ℕ) (size : ℤ) : ℕ → List Code → String → Except Error String
  | _, [], refs => .ok refs
  | i, x :: xs, refs =>
    if size ≤ i then .ok refs
    else do
      let text ← match x with
        | some text => .ok text
        | none => .error .typeError
      if i + 1 = n ∨ i = size - 1 then joinReferences n size (i + 1) xs (refs ++ text)
      else joinReferences n size (i + 1) xs (refs ++ text ++ ", ")

/-- `get_references`, without the removal of a sole reference from its set. -/
def getReferences [SetOrder Code] (references : Finset Code) (size : ℤ) : Except Error String :=
  if references.card = 1 ∨ size = 1 then
    match SetOrder.list references with
    | some text :: _ => .ok ("\x7b" ++ text ++ "\x7d")
    | none :: _ => .error .typeError
    | [] => .error .keyError
  else do
    let refs ← joinReferences references.card size 0 (SetOrder.list references) "\x7b"
    .ok (refs ++ "\x7d")

/-- `refs` of `BugReport.__str__`. -/
def BugReport.refs [SetOrder Code] (shown : V → PyValue) (r : BugReport K V Code) : Except Error String :=
  match r.references with
  | some references => do
    let size ← (shown r.ctx).reference
    getReferences references size
  | none => .ok ""

/-- `line` of `BugReport.__str__`. -/
def BugReport.line (fs : FileSystem) (r : BugReport K V Code) : Except Error String := do
  let line ← printLine fs r.code
  .ok ((line.map fun line => "\n" ++ line).getD "")

/-- `BugReport.__str__`. How a score is rounded and a key is shown is left
open; `shown` is the context as a Python value. -/
def BugReport.str [SetOrder Code] (fs : FileSystem) (percent : ℚ → String) (keyText : K → String)
    (shown : V → PyValue) (r : BugReport K V Code) : Except Error String := do
  let refs ← r.refs shown
  let ctx ← humanizeRange (shown r.ctx)
  let line ← r.line fs
  .ok (percent r.score ++ " " ++ r.code.getD "None" ++ " '" ++ keyText r.key ++ "' " ++ ctx ++ " " ++ refs ++
    line)

section

variable [SetOrder Code] {fs : FileSystem} {percent : ℚ → String} {keyText : K → String}
  {shown : V → PyValue} {r : BugReport K V Code}

/-- A report whose context is not a list of intervals does not print. -/
theorem BugReport.str_error (h : ∀ ivals, shown r.ctx ≠ .intervals ivals) :
    ¬ ∃ s, r.str fs percent keyText shown = .ok s := by
  rintro ⟨s, hs⟩
  obtain ⟨refs, -, hs⟩ := bind_eq_ok.mp hs
  obtain ⟨ctx, hctx, -⟩ := bind_eq_ok.mp hs
  cases hshown : shown r.ctx with
  | intervals ivals => exact h ivals hshown
  | _ =>
    rw [hshown] at hctx
    cases hctx

/-- A report of intervals without references prints if its location does. -/
theorem BugReport.str_intervals {ivals : List (ℤ × ℤ)} (hctx : shown r.ctx = .intervals ivals)
    (hrefs : r.references = none) :
    (∃ s, r.str fs percent keyText shown = .ok s) ↔ Printable fs r.code := by
  rw [← printLine_ok_iff]
  obtain ⟨s, hs⟩ := humanizeIntervals_ok ivals
  unfold BugReport.str BugReport.refs BugReport.line
  rw [hrefs, hctx]
  simp only [humanizeRange, hs, ok_bind]
  cases printLine fs r.code with
  | error e => exact iff_of_false (fun ⟨_, h⟩ => by cases h) fun ⟨_, h⟩ => by cases h
  | ok line => exact iff_of_true ⟨_, rfl⟩ ⟨line, rfl⟩

end

/-! ### The checkers -/

/-- `is_dealloc`. -/
def isDealloc (name : String) : Bool := hasKeyword name ["free", "release"]

/-- `is_lock`, of `rank_utils`. -/
def isLock (name : String) : Bool := hasKeyword name ["_lock"]

/-- `is_unlock`, of `rank_utils`. -/
def isUnlock (name : String) : Bool := hasKeyword name ["_unlock"]

/-- `is_print`. -/
def isPrint (name : String) : Bool := hasKeyword name ["print"]

/-- A ranking: a bonus on each score, then the reports by their scores. -/
def ranked {K V C : Type} (bonus : BugReport K V C → ℚ) (reports : List (BugReport K V C)) :
    List (BugReport K V C) :=
  sortedByScore (reports.map fun report => { report with score := report.score + bonus report })

section

variable [SetOrder Code]

/-- `ArgChecker.merge`. -/
def ArgChecker.merge (ctxs : List (Context (ℤ × ℕ × ℕ) Bool Code)) :
    Except Error (Option (List (BugReport (ℤ × ℕ × ℕ) Bool Code))) :=
  Deviant.merge ArgContext.keyBugs sortedByScore ctxs

/-- What `FSBChecker.rank` adds to a score; `id?` is the name of a key that is
an identifier. -/
def FSBChecker.bonus (id? : ℤ → Option String) (report : BugReport (ℤ × ℕ) (Bool × Bool) Code) : ℚ :=
  (if report.ctx = (true, true) then 1 / 2 else 0) + if (id? report.key.1).any isPrint then 3 / 10 else 0

/-- `FSBChecker.merge`. -/
def FSBChecker.merge (id? : ℤ → Option String) (ctxs : List (Context (ℤ × ℕ) (Bool × Bool) Code)) :
    Except Error (Option (List (BugReport (ℤ × ℕ) (Bool × Bool) Code))) :=
  Deviant.merge FSBContext.keyBugs (ranked (FSBChecker.bonus id?)) ctxs

/-- What `IntOvflChecker.rank` adds to a score. -/
def IntOvflChecker.bonus (report : BugReport (ℤ × ℕ) IntOvflChkType Code) : ℚ :=
  if report.ctx = .wrong then 3 / 10 else 0

/-- `IntOvflChecker.merge`. -/
def IntOvflChecker.merge (ctxs : List (Context (ℤ × ℕ) IntOvflChkType Code)) :
    Except Error (Option (List (BugReport (ℤ × ℕ) IntOvflChkType Code))) :=
  Deviant.merge IntOvflContext.keyBugs (ranked IntOvflChecker.bonus) ctxs

/-- What `CausalityChecker.rank` adds to a score. -/
def CausalityChecker.bonus (id? : ℤ → Option String) (report : BugReport CausalityChecker.Key ℤ Code) : ℚ :=
  match id? report.key.1, id? report.ctx with
  | some func, some ctx =>
    if isAlloc func ∧ isDealloc ctx then 1 / 2
    else if isLock func ∧ isUnlock ctx then 1 / 2
    else if isDealloc ctx then 3 / 10
    else 0
  | _, _ => 0

/-- `CausalityChecker.merge`. -/
def CausalityChecker.merge (id? : ℤ → Option String) (ctxs : List (Context CausalityChecker.Key ℤ Code)) :
    Except Error (Option (List (BugReport CausalityChecker.Key ℤ Code))) :=
  Deviant.merge Context.baseBugs (ranked (CausalityChecker.bonus id?)) ctxs

end

/-- The checkers whose reports are printed. -/
inductive ReportingChecker
  | adding (a : AddingChecker)
  | cpair
  deriving DecidableEq, Repr

namespace ReportingChecker

/-- The keys of a checker's context. -/
def Key : ReportingChecker → Type
  | adding a => a.Key
  | cpair => CausalityChecker.Key

/-- The values of a checker's context. -/
def Value : ReportingChecker → Type
  | adding a => a.Value
  | cpair => ℤ

/-- A value as it is stored in a report. -/
def shown : (c : ReportingChecker) → c.Value → PyValue
  | adding .args => PyValue.bool
  | adding .fsb => fun v : Bool × Bool => .pair v.1 v.2
  | adding .intovfl => PyValue.chkType
  | adding .rvchk => PyValue.intervals
  | adding .thread => PyValue.bool
  | cpair => PyValue.symbol

/-- `merge` of a checker; `id?` is the name of a symbol that is an identifier. -/
def merge [SetOrder Code] (id? : ℤ → Option String) : (c : ReportingChecker) →
    List (Context c.Key c.Value Code) → Except Error (Option (List (BugReport c.Key c.Value Code)))
  | adding .args => ArgChecker.merge
  | adding .fsb => FSBChecker.merge id?
  | adding .intovfl => IntOvflChecker.merge
  | adding .rvchk => RetValChecker.merge (K := ℤ) (V := List (ℤ × ℤ)) id?
  | adding .thread => ThreadSafetyChecker.merge (K := Option String) (V := Bool)
  | cpair => CausalityChecker.merge id?

end ReportingChecker

/-- The reports on return values have no references. -/
theorem RetValChecker.references_eq_none [SetOrder Code] {id? : ℤ → Option String}
    {ctxs : List (Context ℤ (List (ℤ × ℤ)) Code)} {bugs : List (BugReport ℤ (List (ℤ × ℤ)) Code)}
    (h : RetValChecker.merge id? ctxs = .ok (some bugs)) : ∀ b ∈ bugs, b.references = none := by
  obtain ⟨c, bs, -, hbs, rfl⟩ := Deviant.merge_eq_some.mp h
  intro b hb
  obtain ⟨r, hr, rfl⟩ := List.mem_map.mp (mem_sortedByScore.mp hb)
  obtain ⟨x, -, l, hl, hmem⟩ := (mem_gather hbs).mp hr
  obtain ⟨⟨diff, scores⟩, -, hl⟩ := bind_eq_ok.mp hl
  by_cases hcard : diff.card = (c.total x.1).card
  · cases (if_pos hcard).symm.trans hl
    cases hmem
  · replace hl := (if_neg hcard).symm.trans hl
    obtain ⟨code, -, l', hl', hmem'⟩ := (mem_gather hl).mp hmem
    obtain ⟨score, -, hl'⟩ := bind_eq_ok.mp hl'
    split at hl'
    · cases hl'
      rw [List.mem_singleton.mp hmem']
      rfl
    · cases hl'

/-- **Which reports print**: those on return values whose location is a text
that can be looked up. -/
theorem str_ok_iff [SetOrder Code] (fs : FileSystem) (percent : ℚ → String) {id? : ℤ → Option String}
    {c : ReportingChecker} (keyText : c.Key → String) {ctxs : List (Context c.Key c.Value Code)}
    {bugs : List (BugReport c.Key c.Value Code)} (hmerge : c.merge id? ctxs = .ok (some bugs)) :
    ∀ b ∈ bugs, (∃ s, b.str fs percent keyText c.shown = .ok s) ↔
      c = .adding .rvchk ∧ Printable fs b.code := by
  intro b hb
  by_cases hc : c = .adding .rvchk
  · subst hc
    rw [and_iff_right rfl]
    exact BugReport.str_intervals rfl (RetValChecker.references_eq_none hmerge b hb)
  · refine iff_of_false (BugReport.str_error fun ivals h => ?_) fun h => hc h.1
    rcases c with (_ | _ | _ | _ | _) | _
    · cases h
    · cases h
    · cases h
    · exact hc rfl
    · cases h
    · cases h

/-- Four sites check a result for 0, and a fifth for values from 1 to 5. -/
def checkedResults : Context ℤ (List (ℤ × ℤ)) Code :=
  (Context.new ⟨4 / 5⟩).addAll
    [⟨7, some [(0, 0)], some "a.c:1"⟩, ⟨7, some [(0, 0)], some "a.c:2"⟩, ⟨7, some [(0, 0)], some "a.c:3"⟩,
      ⟨7, some [(0, 0)], some "a.c:4"⟩, ⟨7, some [(1, 5)], some "a.c:5"⟩]

theorem checkedResults_deviates : checkedResults.Deviates 7 (some "a.c:5") := by
  have hvalues : checkedResults.values 7 = [[(0, 0)], [(1, 5)]] := by decide +kernel
  have hzero : checkedResults.Qualifies 7 [(0, 0)] := by decide +kernel
  have hother : ¬ checkedResults.Qualifies 7 [(1, 5)] := by decide +kernel
  refine ⟨by decide +kernel, ⟨_, hzero⟩, fun v hv => ?_⟩
  have hmem := hv.1
  rw [hvalues, List.mem_cons, List.mem_singleton] at hmem
  rcases hmem with rfl | rfl
  · decide +kernel
  · exact absurd hv hother

/-- No file exists. -/
def noFiles : FileSystem where
  pathExists := fun _ => false
  openText := fun _ => .error .fileNotFoundError

/-- The report on the fifth site prints. -/
theorem checkedResults_prints :
    let _ : SetOrder Code := ⟨Finset.toList, fun _ _ => Finset.mem_toList, Finset.nodup_toList⟩
    ∃ bugs, RetValChecker.merge (fun _ => none) [checkedResults] = .ok (some bugs) ∧
      ∃ b ∈ bugs, b.code = some "a.c:5" ∧
        ∃ s, b.str noFiles (fun _ => "80.00%") (fun _ => "f") PyValue.intervals = .ok s := by
  intro _
  have hsound : checkedResults.Sound := (Context.reachable_addAll (.new _)).sound
  obtain ⟨bugs, hbugs, -, hiff⟩ := Context.exists_reported_iff hsound false
  obtain ⟨b, hb, -, hcode⟩ := (hiff _ _).mpr checkedResults_deviates
  have hmerge : RetValChecker.merge (fun _ => none) [checkedResults] =
      .ok (some (RetValChecker.rank (fun _ => none) bugs)) :=
    Deviant.merge_eq_some.mpr ⟨checkedResults, bugs, rfl, hbugs, rfl⟩
  have hmem : { b with score := b.score + RetValChecker.bonus (fun _ => none) b.key } ∈
      RetValChecker.rank (fun _ => none) bugs := mem_sortedByScore.mpr (List.mem_map.mpr ⟨b, hb, rfl⟩)
  have hprintable : Printable noFiles b.code := ⟨"a.c:5", hcode, fun _ _ _ _ hexists => by cases hexists⟩
  exact ⟨_, hmerge, _, hmem, hcode,
    (str_ok_iff noFiles (fun _ => "80.00%") (c := .adding .rvchk) (fun _ => "f") hmerge _ hmem).mpr
      ⟨rfl, hprintable⟩⟩

/-- Four sites pass a format, and a fifth passes a variable. -/
def fourFormats : List Path :=
  [FSBChecker.callOfF "\"%d\"" "a.c:1", FSBChecker.callOfF "\"%d\"" "a.c:2",
    FSBChecker.callOfF "\"%d\"" "a.c:3", FSBChecker.callOfF "\"%d\"" "a.c:4", FSBChecker.callOfF "y" "a.c:5"]

/-- The report on the fifth site does not print. -/
theorem fourFormats_raises :
    let _ : StrHash := ⟨fun s => s.length⟩
    let _ : SetOrder Code := ⟨Finset.toList, fun _ _ => Finset.mem_toList, Finset.nodup_toList⟩
    Checker.process FSBChecker.processPath ⟨4 / 5⟩ fourFormats = .ok (FSBChecker.ctxOfF fourFormats) ∧
      ∃ bugs, FSBChecker.merge (fun _ => none) [FSBChecker.ctxOfF fourFormats] = .ok (some bugs) ∧
        ∃ b ∈ bugs, ¬ ∃ s, b.str noFiles (fun _ => "80.00%") (fun _ => "f")
          (ReportingChecker.adding .fsb).shown = .ok s := by
  intro _ _
  have hisOk : ∀ path ∈ fourFormats, (FSBChecker.processPath path).isOk = true := by decide +kernel
  refine ⟨Checker.process_ok.mpr ⟨fun path hpath => exists_eq_ok (hisOk path hpath), rfl⟩, ?_⟩
  obtain ⟨c, hc⟩ : ∃ c, FSBChecker.ctxOfF fourFormats = c := ⟨_, rfl⟩
  have hsound : c.Sound := hc ▸ FSBChecker.ctxOfF_sound fourFormats
  have hconfig : c.config = ⟨4 / 5⟩ := hc ▸ FSBChecker.ctxOfF_config fourFormats
  have hscore : FSBContext.score c ((Symbol.id "f").key, 0) = .ok (4 / 5) := by
    rw [← hc]
    decide +kernel
  have hcode : some "a.c:5" ∈ c.codes ((Symbol.id "f").key, 0) (false, false) := by
    rw [← hc]
    decide +kernel
  rw [hc]
  obtain ⟨bugs, hbugs, hiff⟩ := FSBContext.getBugs_spec hsound
  rw [hconfig] at hiff
  obtain ⟨b, hb, -⟩ := (hiff _ _ _).mpr ⟨hscore, ⟨le_rfl, by decide +kernel⟩, (false, false), rfl, hcode⟩
  have hmerge : FSBChecker.merge (fun _ => none) [c] = .ok (some (ranked (FSBChecker.bonus fun _ => none) bugs)) :=
    Deviant.merge_eq_some.mpr ⟨c, bugs, rfl, hbugs, rfl⟩
  refine ⟨_, hmerge, _, mem_sortedByScore.mpr (List.mem_map.mpr ⟨b, hb, rfl⟩),
    BugReport.str_error fun ivals h => ?_⟩
  cases h

end Apisan
