/-
# The original file of a database file

The database keeps what was extracted from `q` under its directory, as `q.as`
and maybe further extensions. `FilenameResolver` gets `q` back by stripping the
extensions one by one (`stripExtensions_halts`). It does so where the last
component of `q` is not all dots, and takes a file for one of its directory
wherever the name starts like the directory's (`filenameResolver_iff`).

Key definitions: `splitext`, `stripStep`, `filenameResolver`, `Resolves`.
Key theorems: `splitext_dot`, `stripExtensions_halts`, `stripExtensions_of_as`,
`filenameResolver_iff`.
-/
import Apisan.Parse.Event
import Apisan.Lib.Machine

namespace Apisan

open Python

/-! ### Extensions -/

/-- The last component of a path has a character other than a dot. -/
def hasName (path : List Char) : Bool := (path.reverse.takeWhile (· != '/')).any (· != '.')

/-- What an extension is made of. -/
def extensionChar (c : Char) : Bool := c != '.' && c != '/'

/-- `os.path.splitext`: an extension starts at the last dot of the last
component, if not only dots stand before it. -/
def splitext (path : String) : String × String :=
  let cs := path.toList.reverse
  match cs.dropWhile extensionChar with
  | '.' :: root =>
    if hasName root.reverse then
      (String.ofList root.reverse, String.ofList ('.' :: (cs.takeWhile extensionChar).reverse))
    else (path, "")
  | _ => (path, "")

/-- The loop of `FilenameResolver.__call__`, on `fname` and `ext`. -/
def stripStep (s : String × String) : (String × String) ⊕ (String × String) :=
  if s.2 ≠ ".as" ∧ s.2 ≠ "" then .inl (splitext s.1) else .inr s

/-- `FilenameResolver.__call__`, with fuel for its loop. -/
def filenameResolver (pre : String) (n : ℕ) (filename : String) : Option Resolver :=
  if pre.toList.isPrefixOf filename.toList then
    let filename := String.ofList (filename.toList.drop (pre.length + 1))
    (Machine.run stripStep n (splitext filename)).map fun s =>
      if s.2 = ".as" then containedResolver s.1 else containedResolver filename
  else some noResolver

/-- The resolver returned for a file. -/
def Resolves (pre filename : String) (r : Resolver) : Prop :=
  ∃ n, filenameResolver pre n filename = some r

theorem Resolves.unique {pre filename : String} {r r' : Resolver} (h : Resolves pre filename r)
    (h' : Resolves pre filename r') : r = r' := by
  obtain ⟨n, hn⟩ := h
  obtain ⟨m, hm⟩ := h'
  unfold filenameResolver at hn hm
  split_ifs at hn hm with hpre
  · obtain ⟨s, hs, rfl⟩ := Option.map_eq_some_iff.mp hn
    obtain ⟨t, ht, rfl⟩ := Option.map_eq_some_iff.mp hm
    rw [Machine.run_unique hs ht]
  · exact (Option.some.inj hn).symm.trans (Option.some.inj hm)

/-! ### One extension -/

theorem hasName_append {root rest : List Char} (h : '/' ∉ rest) :
    hasName (root ++ rest) = (rest.any (· != '.') || hasName root) := by
  have htake : (rest.reverse ++ root.reverse).takeWhile (· != '/') =
      rest.reverse ++ root.reverse.takeWhile (· != '/') := by
    refine List.takeWhile_append_of_pos fun c hc => ?_
    rw [List.mem_reverse] at hc
    simpa using fun he : c = '/' => h (he ▸ hc)
  unfold hasName
  rw [List.reverse_append, htake, List.any_append, List.any_reverse]

theorem splitext_dot {root ext : List Char} (h : ext.all extensionChar = true) :
    splitext (String.ofList (root ++ '.' :: ext)) =
      if hasName root then (String.ofList root, String.ofList ('.' :: ext))
      else (String.ofList (root ++ '.' :: ext), "") := by
  have hreverse : (root ++ '.' :: ext).reverse = ext.reverse ++ '.' :: root.reverse := by simp
  have hpos : ∀ c ∈ ext.reverse, extensionChar c = true := by
    simpa using h
  have hdot : ¬extensionChar '.' = true := by decide
  have hdrop : (ext.reverse ++ '.' :: root.reverse).dropWhile extensionChar = '.' :: root.reverse := by
    rw [List.dropWhile_append_of_pos hpos, List.dropWhile_cons_of_neg hdot]
  have htake : (ext.reverse ++ '.' :: root.reverse).takeWhile extensionChar = ext.reverse := by
    rw [List.takeWhile_append_of_pos hpos, List.takeWhile_cons_of_neg hdot, List.append_nil]
  simp only [splitext, String.toList_ofList, hreverse, hdrop, htake, List.reverse_reverse]

/-- The two parts make up the path. -/
theorem splitext_append (path : String) : (splitext path).1 ++ (splitext path).2 = path := by
  unfold splitext
  simp only
  split
  · rename_i root hroot
    split_ifs
    · have hcs := List.takeWhile_append_dropWhile (p := extensionChar) (l := path.toList.reverse)
      rw [hroot] at hcs
      have hpath := congrArg List.reverse hcs
      rw [List.reverse_reverse, List.reverse_append] at hpath
      rw [← String.toList_inj, String.toList_append, String.toList_ofList, String.toList_ofList]
      refine Eq.trans ?_ hpath
      simp
    · simp
  · simp

theorem splitext_length_lt {path : String} (h : (splitext path).2 ≠ "") :
    (splitext path).1.length < path.length := by
  have hlength := congrArg String.length (splitext_append path)
  rw [String.length_append] at hlength
  have hpos : 0 < (splitext path).2.length := by
    rw [Nat.pos_iff_ne_zero, ne_eq, String.length_eq_zero_iff]
    exact h
  omega

/-! ### The loop -/

/-- **Stripping ends** on every file name: an extension makes it shorter, and
without one the loop is left. -/
theorem stripExtensions_halts (path : String) :
    ∃ n s, Machine.run stripStep n (splitext path) = some s := by
  let μ (s : String × String) : ℕ := if s.2 = "" then 0 else s.1.length + 1
  have hμ : ∀ s t, Machine.Next stripStep s t → μ t < μ s := by
    intro s t hnext
    unfold Machine.Next stripStep at hnext
    split_ifs at hnext with hext
    cases hnext
    simp only [μ, if_neg hext.2]
    by_cases hlast : (splitext s.1).2 = ""
    · rw [if_pos hlast]
      omega
    · rw [if_neg hlast]
      have := splitext_length_lt hlast
      omega
  obtain ⟨s, hs⟩ := Machine.run_of_measure μ hμ (Nat.lt_succ_self (μ (splitext path)))
  exact ⟨_, s, hs⟩

/-- A further extension, without its dot. -/
def Extension (x : String) : Prop := '.' ∉ x.toList ∧ '/' ∉ x.toList ∧ x ≠ "as"

/-- Extensions in a row. -/
def dotted (exts : List String) : List Char := exts.flatMap fun x => '.' :: x.toList

theorem slash_notMem_dotted {exts : List String} (h : ∀ x ∈ exts, Extension x) : '/' ∉ dotted exts := by
  intro hmem
  obtain ⟨x, hx, hslash⟩ := List.mem_flatMap.mp hmem
  rcases List.mem_cons.mp hslash with hdot | hslash
  · cases hdot
  · exact (h x hx).2.1 hslash

/-- A component with the letters of `.as` has a name. -/
theorem hasName_of_as (q : List Char) {exts : List String} (h : ∀ x ∈ exts, Extension x) :
    hasName (q ++ ".as".toList ++ dotted exts) = true := by
  have hslash : '/' ∉ ".as".toList ++ dotted exts := by
    rw [List.mem_append]
    rintro (hmem | hmem)
    · exact absurd hmem (by decide)
    · exact slash_notMem_dotted h hmem
  rw [List.append_assoc, hasName_append hslash, List.any_append]
  rfl

theorem splitext_extension {x : String} (hx : Extension x) {root : List Char} (hroot : hasName root = true) :
    splitext (String.ofList (root ++ '.' :: x.toList)) =
      (String.ofList root, String.ofList ('.' :: x.toList)) := by
  have hchars : x.toList.all extensionChar = true := by
    rw [List.all_eq_true]
    intro c hc
    simp only [extensionChar, Bool.and_eq_true, bne_iff_ne]
    exact ⟨fun he => hx.1 (he ▸ hc), fun he => hx.2.1 (he ▸ hc)⟩
  rw [splitext_dot hchars, if_pos hroot]

/-- The loop goes on after a further extension. -/
theorem next_extension {x : String} (hx : Extension x) (fname : String) :
    Machine.Next stripStep (fname, String.ofList ('.' :: x.toList)) (splitext fname) := by
  have has : String.ofList ('.' :: x.toList) ≠ ".as" := by
    intro he
    refine hx.2.2 (String.toList_inj.mp ?_)
    have hlist := congrArg String.toList he
    rw [String.toList_ofList] at hlist
    exact (List.cons.inj hlist).2
  have hempty : String.ofList ('.' :: x.toList) ≠ "" := by
    intro he
    have hlist := congrArg String.toList he
    rw [String.toList_ofList] at hlist
    cases hlist
  exact if_pos ⟨has, hempty⟩

/-- The extensions after `.as` come off, and then `.as` does, or nothing. -/
theorem stripExtensions_of_as (q : List Char) (exts : List String) (h : ∀ x ∈ exts, Extension x) :
    ∃ n, Machine.run stripStep n (splitext (String.ofList (q ++ ".as".toList ++ dotted exts))) =
      some (if hasName q then (String.ofList q, ".as") else (String.ofList (q ++ ".as".toList), "")) := by
  induction exts using List.reverseRecOn with
  | nil =>
    have hlast : splitext (String.ofList (q ++ ".as".toList)) =
        if hasName q then (String.ofList q, ".as") else (String.ofList (q ++ ".as".toList), "") :=
      splitext_dot (show ['a', 's'].all extensionChar = true by decide)
    refine ⟨1, ?_⟩
    rw [dotted, List.flatMap_nil, List.append_nil, hlast]
    refine Machine.run_halt (if_neg ?_)
    by_cases hq : hasName q = true
    · rw [if_pos hq]
      exact fun hext => hext.1 rfl
    · rw [if_neg hq]
      exact fun hext => hext.2 rfl
  | append_singleton exts x ih =>
    have hexts : ∀ y ∈ exts, Extension y := fun y hy => h y (List.mem_append_left _ hy)
    have hx : Extension x := h x (List.mem_append_right _ (List.mem_singleton_self x))
    obtain ⟨n, hn⟩ := ih hexts
    have hdotted : dotted (exts ++ [x]) = dotted exts ++ '.' :: x.toList := by simp [dotted]
    refine ⟨n + 1, ?_⟩
    rw [hdotted, ← List.append_assoc, splitext_extension hx (hasName_of_as q hexts),
      Machine.run_next (next_extension hx _)]
    exact hn

/-! ### The resolver -/

/-- `os.path.join(directory, "")`. -/
def withSeparator (directory : String) : List Char :=
  if directory.toList.getLast? ∈ [none, some '/'] then directory.toList else directory.toList ++ ['/']

/-- The file lies in the directory. -/
def Inside (directory filename : String) : Prop := withSeparator directory <+: filename.toList

theorem resolves_outside {pre filename : String} (h : ¬pre.toList <+: filename.toList) :
    Resolves pre filename noResolver := by
  refine ⟨0, ?_⟩
  rw [filenameResolver, if_neg (by rwa [List.isPrefixOf_iff_prefix])]

theorem containedResolver_ne (container : String) : containedResolver container ≠ noResolver := by
  intro h
  have hempty : container ++ ":" ++ "" = "" := Option.some.inj (Except.ok.inj (congrFun h (some "")))
  have hlength := congrArg String.length hempty
  have hcolon : ":".length = 1 := rfl
  have hzero : "".length = 0 := String.length_empty
  simp only [String.length_append] at hlength
  omega

theorem resolves_prefixed {pre filename : String} {n : ℕ} {s : String × String}
    (h : pre.toList <+: filename.toList)
    (hrun : Machine.run stripStep n
      (splitext (String.ofList (filename.toList.drop (pre.length + 1)))) = some s) :
    Resolves pre filename (if s.2 = ".as" then containedResolver s.1
      else containedResolver (String.ofList (filename.toList.drop (pre.length + 1)))) := by
  refine ⟨n, ?_⟩
  rw [filenameResolver, if_pos (by rwa [List.isPrefixOf_iff_prefix])]
  show (Machine.run stripStep n _).map _ = _
  rw [hrun, Option.map_some]

/-- The identity is returned exactly where the name does not start like the
directory's. -/
theorem resolves_noResolver_iff {pre filename : String} :
    Resolves pre filename noResolver ↔ ¬pre.toList <+: filename.toList := by
  constructor
  · intro h hpre
    obtain ⟨n, s, hrun⟩ := stripExtensions_halts (String.ofList (filename.toList.drop (pre.length + 1)))
    have hres := h.unique (resolves_prefixed hpre hrun)
    split_ifs at hres
    · exact containedResolver_ne _ hres.symm
    · exact containedResolver_ne _ hres.symm
  · exact resolves_outside

/-- What the directory holds of `q` is resolved to `q`, or else to its own name. -/
theorem resolves_of_as (pre q : String) {exts : List String} (h : ∀ x ∈ exts, Extension x) :
    Resolves pre (pre ++ "/" ++ q ++ ".as" ++ String.ofList (dotted exts))
      (if hasName q.toList then containedResolver q
        else containedResolver (q ++ ".as" ++ String.ofList (dotted exts))) := by
  have hpre : pre.toList <+: (pre ++ "/" ++ q ++ ".as" ++ String.ofList (dotted exts)).toList := by
    simp only [String.toList_append, List.append_assoc]
    exact List.prefix_append _ _
  have hdrop : (pre ++ "/" ++ q ++ ".as" ++ String.ofList (dotted exts)).toList.drop (pre.length + 1) =
      q.toList ++ ".as".toList ++ dotted exts := by
    have hlength : pre.length + 1 = (pre.toList ++ ['/']).length := by
      rw [List.length_append, String.length_toList, List.length_singleton]
    have happend : (pre ++ "/" ++ q ++ ".as" ++ String.ofList (dotted exts)).toList =
        pre.toList ++ ['/'] ++ (q.toList ++ ".as".toList ++ dotted exts) := by simp
    rw [happend, hlength, List.drop_left]
  obtain ⟨n, hrun⟩ := stripExtensions_of_as q.toList exts h
  rw [← hdrop] at hrun
  have hres := resolves_prefixed hpre hrun
  by_cases hq : hasName q.toList = true
  · rw [if_pos hq]
    simpa [hq] using hres
  · rw [if_neg hq]
    have hself : String.ofList (q.toList ++ ".as".toList ++ dotted exts) =
        q ++ ".as" ++ String.ofList (dotted exts) := by simp [← String.toList_inj]
    rw [hdrop, hself] at hres
    simpa [hq] using hres

/-- **Which files are resolved rightly**: a file of the directory if its
original has a name, and another file if its name does not start like the
directory's. -/
theorem filenameResolver_iff (pre : String) :
    (∀ (q : String) (exts : List String), (∀ x ∈ exts, Extension x) →
      ((∃ r, Resolves pre (pre ++ "/" ++ q ++ ".as" ++ String.ofList (dotted exts)) r ∧
          ∀ code, r (some code) = .ok (some (q ++ ":" ++ code))) ↔ hasName q.toList = true)) ∧
    (∀ filename, ¬Inside pre filename →
      (Resolves pre filename noResolver ↔ ¬pre.toList <+: filename.toList)) ∧
    ∀ path, ∃ n s, Machine.run stripStep n (splitext path) = some s := by
  refine ⟨fun q exts h => ?_, fun _ _ => resolves_noResolver_iff, stripExtensions_halts⟩
  have hres := resolves_of_as pre q h
  by_cases hq : hasName q.toList = true
  · rw [if_pos hq] at hres
    exact iff_of_true ⟨_, hres, fun _ => rfl⟩ hq
  · rw [if_neg hq] at hres
    refine iff_of_false ?_ hq
    rintro ⟨r, hr, hcode⟩
    rw [hr.unique hres] at hcode
    have hempty : q ++ ".as" ++ String.ofList (dotted exts) ++ ":" ++ "" = q ++ ":" ++ "" :=
      Option.some.inj (Except.ok.inj (hcode ""))
    have hlength := congrArg String.length hempty
    have has : ".as".length = 3 := rfl
    simp only [String.length_append] at hlength
    omega

theorem filenameResolver_nested : ∃ r, Resolves "/w/as-out" "/w/as-out/lib/a.b.c.as.gz" r ∧
    ∀ code, r (some code) = .ok (some ("lib/a.b.c" ++ ":" ++ code)) :=
  ((filenameResolver_iff "/w/as-out").1 "lib/a.b.c" ["gz"] (by
    intro x hx
    rw [List.mem_singleton.mp hx]
    exact ⟨by decide, by decide, by decide⟩)).mpr (by decide)

/-- A directory beside the database, with a longer name. -/
theorem sibling_resolved : ¬Inside "/w/as-out" "/w/as-out2/f.c.as" ∧
    ¬Resolves "/w/as-out" "/w/as-out2/f.c.as" noResolver :=
  ⟨by unfold Inside; decide, fun h => resolves_noResolver_iff.mp h (by decide)⟩

end Apisan
