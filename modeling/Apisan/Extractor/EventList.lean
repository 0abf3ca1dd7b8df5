/-
# The event lists of the extractor

The extractor records the events of a path in an immutable list kept in the
program state, one factory for all lists. The factory returns a stored list
whenever the new head has the profile of its head and the tail is the same,
and the profile of an event is its kind and its text (`SymExecEvent.Profile`),
without the location in the code. A history of adds can then read back with
another call's location (`merged_calls`). All locations are kept exactly if
the adds whose paths agree in kinds and texts agree in locations
(`keeps_iff`).

Key definitions: `SymExecEvent`, `SymExecEvent.profile`, `EventList.History`,
`EventList.get`, `EventList.path`.
Key theorems: `EventList.get_profile`, `EventList.keeps_iff`.
-/
import Apisan.Lib.HashCons

namespace Apisan

/-- `SymExecEvent::Kind`. -/
inductive Kind
  | fnCall
  | fnReturn
  | assume
  | eop
  deriving DecidableEq, Repr

/-- An event: its kind, its location in the code and its text (`SV`). -/
structure SymExecEvent where
  kind : Kind
  code : String
  sv : String
  deriving DecidableEq, Repr

namespace SymExecEvent

/-- The event of a kind alone. -/
def ofKind (k : Kind) : SymExecEvent := ⟨k, "", ""⟩

/-- The event of a call, with the location of its statement. -/
def ofCall (k : Kind) (code sv : String) : SymExecEvent := ⟨k, code, sv⟩

/-- The event of a condition. -/
def ofCond (k : Kind) (serialized : String) : SymExecEvent := ⟨k, "", serialized⟩

/-- `SymExecEvent::Profile`: what the factory compares. -/
def profile (e : SymExecEvent) : Kind × String := (e.kind, e.sv)

end SymExecEvent

namespace EventList

open HashCons

/-- The adds `State->add<EventList>(e)` made through one factory, newest
first. Each extends the empty list, or the list returned by the add with the
given number of adds before it. -/
abbrev History := List (Cell SymExecEvent)

/-- The events added along the path of an add, last one first. -/
def path (h : History) (k : ℕ) : List SymExecEvent := read h (some k)

/-- The events read back from the list an add returned, after the history. -/
def get (h : History) (k : ℕ) : List SymExecEvent :=
  let s := run SymExecEvent.profile h
  read s.cells (s.list (some k))

/-- Kinds and texts are always kept. -/
theorem get_profile (h : History) (k : ℕ) :
    (get h k).map SymExecEvent.profile = (path h k).map SymExecEvent.profile :=
  (run_inv h).profiles (some k)

theorem map_code_eq {as bs : List SymExecEvent}
    (hp : as.map SymExecEvent.profile = bs.map SymExecEvent.profile)
    (hc : as.map SymExecEvent.code = bs.map SymExecEvent.code) : as = bs := by
  induction as generalizing bs with
  | nil => simpa using hp.symm
  | cons a as ih =>
    cases bs with
    | nil => cases hp
    | cons b bs =>
      simp only [List.map_cons, List.cons.injEq, SymExecEvent.profile, Prod.mk.injEq] at hp hc
      obtain ⟨a1, a2, a3⟩ := a
      obtain ⟨b1, b2, b3⟩ := b
      simp only at hp hc
      rw [ih hp.2 hc.2, hp.1.1, hp.1.2, hc.1]

/-- **When event lists keep the events.** Every list of the history reads back
the events that were added along its path exactly if any two adds with the
same kinds and texts along their paths have the same locations along them. -/
theorem keeps_iff (h : History) :
    (∀ k < h.length, get h k = path h k) ↔
      ∀ j < h.length, ∀ k < h.length,
        (path h j).map SymExecEvent.profile = (path h k).map SymExecEvent.profile →
        (path h j).map SymExecEvent.code = (path h k).map SymExecEvent.code := by
  have hiff : _ ↔ Separated SymExecEvent.profile h := reads_back_iff h
  refine hiff.trans ⟨fun hsep j hj k hk hp => ?_, fun hcode j hj k hk hp => ?_⟩
  · exact congrArg (List.map SymExecEvent.code) (hsep j hj k hk hp)
  · exact map_code_eq hp (hcode j hj k hk hp)

/-- The call `free(p)` on two lines, each added to the empty list. -/
def twoCalls : History :=
  [⟨.ofCall .fnCall "a.c:7" "free(p)", none⟩, ⟨.ofCall .fnCall "a.c:5" "free(p)", none⟩]

/-- The second list reads back the first line. -/
theorem merged_calls :
    path twoCalls 1 = [.ofCall .fnCall "a.c:7" "free(p)"] ∧
      get twoCalls 1 = [.ofCall .fnCall "a.c:5" "free(p)"] ∧
      ¬ ∀ k < twoCalls.length, get twoCalls k = path twoCalls k := by
  decide

end EventList
end Apisan
