import HtmlQuery.Selector.Session

/-!
# Warnings given once

What has been warned about is remembered by the line that shows it, so a warning is new just where no warning with its
line was given since the last clearing (`Warnings.Tells`, kept by every call). Two different warnings can have one line,
when the component of one goes on, behind its own closing bracket, with what the message of the other begins with
(`Warnings.line_eq_iff`). As long as no two such warnings are spoken of, each warning is given once
(`answered_runAll`).
-/

namespace HtmlQuery

/-- What is asked of the warnings. -/
inductive WarningCall where
  /-- That a warning be given. -/
  | warn (component message : String)
  /-- Whether a warning has been given. -/
  | asked (component message : String)
  /-- That the warnings be forgotten. -/
  | clear
  deriving DecidableEq

namespace WarningCall

/-- Makes a call in a session. To forget has no answer. -/
def run : WarningCall → SessionM (Option Bool)
  | warn component message => fun session =>
    let (new, warnings) := session.warnings.warn component message
    (some new, { session with warnings := warnings })
  | asked component message => fun session => (some (session.warnings.given component message), session)
  | clear => do
    Session.clearWarnings
    pure none

/-- Makes calls one after the other. -/
def runAll : List WarningCall → SessionM (List (Option Bool))
  | [] => pure []
  | call :: calls => do
    let answer ← call.run
    let answers ← runAll calls
    pure (answer :: answers)

/-- The warning that a call speaks of. -/
def named : WarningCall → Option (String × String)
  | warn component message => some (component, message)
  | asked component message => some (component, message)
  | clear => none

/-- Among these calls a warning is given, and the warnings are not forgotten behind it. -/
def GivenSince (calls : List WarningCall) (component message : String) : Prop :=
  ∃ before after, calls = before ++ warn component message :: after ∧ clear ∉ after

/-- Among these calls a warning with this line is given, and the warnings are not forgotten behind it. -/
def ShownSince (calls : List WarningCall) (line : String) : Prop :=
  ∃ component message, Warnings.line component message = line ∧ GivenSince calls component message

/-- The answer to a call where `given` says which warnings have been given: a warning is new if it has not. -/
def Answered (given : String → String → Prop) : WarningCall → Option Bool → Prop
  | warn component message, answer => ∃ new, answer = some new ∧ (new = true ↔ ¬ given component message)
  | asked component message, answer => ∃ known, answer = some known ∧ (known = true ↔ given component message)
  | clear, answer => answer = none

/-- No two different warnings that these calls speak of have one line. -/
def ToldApart (calls : List WarningCall) : Prop :=
  ∀ p ∈ calls.filterMap named, ∀ q ∈ calls.filterMap named, Warnings.line p.1 p.2 = Warnings.line q.1 q.2 → p = q

instance (calls : List WarningCall) : Decidable (ToldApart calls) :=
  inferInstanceAs (Decidable (∀ p ∈ calls.filterMap named, ∀ q ∈ calls.filterMap named,
    Warnings.line p.1 p.2 = Warnings.line q.1 q.2 → p = q))

end WarningCall

namespace Warnings

/-! ## Lines -/

/-- Where a closing bracket with its space is found in front of a text that starts with one. -/
theorem mark_append_iff {before rest rest' : List Char} :
    ']' :: ' ' :: rest = before ++ ']' :: ' ' :: rest' ↔
      (before = [] ∧ rest = rest') ∨ ∃ mid, before = ']' :: ' ' :: mid ∧ rest = mid ++ ']' :: ' ' :: rest' := by
  match before with
  | [] => simp
  | [c] =>
    -- the bracket would have to be a space
    simp
  | c :: d :: mid => simp [and_assoc, eq_comm]

theorem append_mark_eq_iff {before before' rest rest' : List Char} :
    before ++ ']' :: ' ' :: rest = before' ++ ']' :: ' ' :: rest' ↔
      (before = before' ∧ rest = rest') ∨
      (∃ mid, before' = before ++ ']' :: ' ' :: mid ∧ rest = mid ++ ']' :: ' ' :: rest') ∨
      ∃ mid, before = before' ++ ']' :: ' ' :: mid ∧ rest' = mid ++ ']' :: ' ' :: rest := by
  rw [List.append_eq_append_iff]
  simp only [mark_append_iff]
  constructor
  · rintro (⟨_, rfl, ⟨rfl, rfl⟩ | ⟨mid, rfl, hrest⟩⟩ | ⟨_, rfl, ⟨rfl, rfl⟩ | ⟨mid, rfl, hrest⟩⟩)
    · exact .inl ⟨(List.append_nil _).symm, rfl⟩
    · exact .inr (.inl ⟨mid, rfl, hrest⟩)
    · exact .inl ⟨List.append_nil _, rfl⟩
    · exact .inr (.inr ⟨mid, rfl, hrest⟩)
  · rintro (⟨rfl, rfl⟩ | ⟨mid, rfl, hrest⟩ | ⟨mid, rfl, hrest⟩)
    · exact .inl ⟨[], (List.append_nil _).symm, .inl ⟨rfl, rfl⟩⟩
    · exact .inl ⟨_, rfl, .inr ⟨mid, rfl, hrest⟩⟩
    · exact .inr ⟨_, rfl, .inr ⟨mid, rfl, hrest⟩⟩

/-- Two warnings have one line if they are the same, or if the component of one is that of the other with the mark
behind a component and what the message of the other begins with. -/
theorem line_eq_iff {c m c' m' : String} :
    line c m = line c' m' ↔ (c = c' ∧ m = m') ∨ (∃ mid, c' = c ++ "] " ++ mid ∧ m = mid ++ "] " ++ m') ∨
      ∃ mid, c = c' ++ "] " ++ mid ∧ m' = mid ++ "] " ++ m := by
  have hmark : "] ".toList = [']', ' '] := rfl
  have hmid : ∀ before rest text other : String,
      (∃ mid : List Char, before.toList = rest.toList ++ ']' :: ' ' :: mid ∧
        text.toList = mid ++ ']' :: ' ' :: other.toList) ↔
      ∃ mid : String, before = rest ++ "] " ++ mid ∧ text = mid ++ "] " ++ other := by
    intro before rest text other
    simp only [← String.toList_inj, String.toList_append, hmark, List.append_assoc, List.cons_append, List.nil_append]
    constructor
    · rintro ⟨mid, hbefore, htext⟩
      exact ⟨String.ofList mid, by rwa [String.toList_ofList], by rwa [String.toList_ofList]⟩
    · rintro ⟨mid, hbefore, htext⟩
      exact ⟨mid.toList, hbefore, htext⟩
  rw [← hmid, ← hmid, ← String.toList_inj, ← String.toList_inj, ← String.toList_inj, ← append_mark_eq_iff]
  simp [line, hmark]

/-! ## What is remembered -/

open WarningCall

/-- The lines that are remembered are those of the warnings given since the last clearing. -/
def Tells (w : Warnings) (calls : List WarningCall) : Prop := ∀ line, line ∈ w.lines ↔ ShownSince calls line

variable {w : Warnings} {calls : List WarningCall} {c m : String}

theorem tells_empty : empty.Tells [] := by
  intro line
  constructor
  · exact fun h => absurd h List.not_mem_nil
  · rintro ⟨_, _, _, before, after, hcalls, _⟩
    exact absurd hcalls (by simp)

theorem Tells.given_iff (h : w.Tells calls) : w.given c m = true ↔ ShownSince calls (line c m) := by
  rw [given, List.contains_iff_mem]
  exact h _

end Warnings

namespace WarningCall

open Warnings

variable {calls : List WarningCall} {c m line : String}

/-- After one call more a warning has been given if that call gives it, or if it had been and is not forgotten. -/
theorem givenSince_concat {call : WarningCall} :
    GivenSince (calls ++ [call]) c m ↔ call = warn c m ∨ call ≠ clear ∧ GivenSince calls c m := by
  constructor
  · rintro ⟨before, after, hcalls, hclear⟩
    obtain rfl | ⟨after, last, rfl⟩ := after.eq_nil_or_concat
    · obtain ⟨-, hcall⟩ := List.append_inj' hcalls rfl
      exact .inl (List.singleton_inj.1 hcall)
    · rw [List.concat_eq_append, ← List.cons_append, ← List.append_assoc] at hcalls
      obtain ⟨hcalls, hcall⟩ := List.append_inj' hcalls rfl
      rw [List.concat_eq_append, List.mem_append, not_or] at hclear
      refine .inr ⟨?_, before, after, hcalls, hclear.1⟩
      rintro rfl
      exact hclear.2 (hcall ▸ List.mem_singleton_self _)
  · rintro (rfl | ⟨hne, before, after, rfl, hclear⟩)
    · exact ⟨calls, [], rfl, List.not_mem_nil⟩
    · refine ⟨before, after ++ [call], by simp, ?_⟩
      rw [List.mem_append, List.mem_singleton, not_or]
      exact ⟨hclear, hne.symm⟩

theorem shownSince_concat {call : WarningCall} : ShownSince (calls ++ [call]) line ↔
    (∃ c m, call = warn c m ∧ Warnings.line c m = line) ∨ call ≠ clear ∧ ShownSince calls line := by
  simp only [ShownSince, givenSince_concat]
  constructor
  · rintro ⟨c, m, hline, hcall | ⟨hne, hgiven⟩⟩
    · exact .inl ⟨c, m, hcall, hline⟩
    · exact .inr ⟨hne, c, m, hline, hgiven⟩
  · rintro (⟨c, m, hcall, hline⟩ | ⟨hne, c, m, hline, hgiven⟩)
    · exact ⟨c, m, hline, .inl hcall⟩
    · exact ⟨c, m, hline, .inr ⟨hne, hgiven⟩⟩

/-! ## Calls one after the other -/

/-- A call is answered by what was given before it, and its warning is remembered. -/
theorem tells_run {s : Session} (h : s.warnings.Tells calls) (call : WarningCall) :
    Answered (fun c m => ShownSince calls (Warnings.line c m)) call (call.run s).1 ∧
      (call.run s).2.warnings.Tells (calls ++ [call]) := by
  cases call with
  | warn c m =>
    have hgiven := h.given_iff (c := c) (m := m)
    simp only [run, Warnings.warn]
    split
    · rename_i hold
      refine ⟨⟨false, rfl, ?_⟩, fun line => ?_⟩
      · simpa using hgiven.1 hold
      · rw [shownSince_concat, h line]
        constructor
        · exact fun hshown => .inr ⟨nofun, hshown⟩
        · rintro (⟨_, _, hcall, rfl⟩ | ⟨-, hshown⟩)
          · cases hcall
            exact hgiven.1 hold
          · exact hshown
    · rename_i hnew
      refine ⟨⟨true, rfl, ?_⟩, fun line => ?_⟩
      · simpa using fun hshown => hnew (hgiven.2 hshown)
      · rw [shownSince_concat, List.mem_cons, h line]
        constructor
        · rintro (rfl | hshown)
          · exact .inl ⟨c, m, rfl, rfl⟩
          · exact .inr ⟨nofun, hshown⟩
        · rintro (⟨_, _, hcall, rfl⟩ | ⟨-, hshown⟩)
          · cases hcall
            exact .inl rfl
          · exact .inr hshown
  | asked c m =>
    refine ⟨⟨_, rfl, h.given_iff⟩, fun line => ?_⟩
    rw [shownSince_concat]
    simpa [run] using h line
  | clear =>
    refine ⟨rfl, fun line => ?_⟩
    rw [shownSince_concat]
    show line ∈ Warnings.empty.lines ↔ _
    simp [Warnings.empty]

/-- The answers to a run of calls, where `given` says which warnings have been given after the calls before. -/
structure AllAnswered (given : List WarningCall → String → String → Prop) (calls : List WarningCall)
    (answers : List (Option Bool)) : Prop where
  length_eq : answers.length = calls.length
  answered : ∀ i call answer, calls[i]? = some call → answers[i]? = some answer →
    Answered (given (calls.take i)) call answer

theorem answered_from (calls : List WarningCall) {past : List WarningCall} {s : Session}
    (h : s.warnings.Tells past) :
    AllAnswered (fun before c m => ShownSince (past ++ before) (Warnings.line c m)) calls ((runAll calls).run s).1 := by
  induction calls generalizing past s with
  | nil => exact ⟨rfl, by simp⟩
  | cons call calls ih =>
    obtain ⟨hanswered, htells⟩ := tells_run h call
    have hlater := ih htells
    refine ⟨congrArg (· + 1) hlater.length_eq, fun i => ?_⟩
    cases i with
    | zero =>
      intro call' answer hcall hanswer
      obtain rfl : call = call' := Option.some.inj hcall
      obtain rfl : (call.run s).1 = answer := Option.some.inj hanswer
      simpa only [List.take_zero, List.append_nil] using hanswered
    | succ i =>
      intro call' answer hcall hanswer
      simpa using hlater.answered i call' answer hcall hanswer

theorem Answered.congr {given given' : String → String → Prop} {call : WarningCall} {answer : Option Bool}
    (h : Answered given call answer) (hsame : ∀ c m, call.named = some (c, m) → (given c m ↔ given' c m)) :
    Answered given' call answer := by
  cases call with
  | warn c m =>
    obtain ⟨new, hnew, hiff⟩ := h
    exact ⟨new, hnew, hiff.trans (not_congr (hsame c m rfl))⟩
  | asked c m =>
    obtain ⟨known, hknown, hiff⟩ := h
    exact ⟨known, hknown, hiff.trans (hsame c m rfl)⟩
  | clear => exact h

/-- Where lines tell warnings apart, each warning is answered for by itself. -/
theorem AllAnswered.of_toldApart {answers : List (Option Bool)} (h : ToldApart calls)
    (hall : AllAnswered (fun before c m => ShownSince before (Warnings.line c m)) calls answers) :
    AllAnswered GivenSince calls answers := by
  refine ⟨hall.length_eq, fun i call answer hcall hanswer => (hall.answered i call answer hcall hanswer).congr ?_⟩
  intro c m hnamed
  constructor
  · rintro ⟨c', m', hline, hgiven⟩
    obtain ⟨before, after, htake, -⟩ := id hgiven
    have hbefore : warn c' m' ∈ calls := List.mem_of_mem_take (i := i) (by rw [htake]; simp)
    have hsame := h (c', m') (List.mem_filterMap.2 ⟨_, hbefore, rfl⟩) (c, m)
      (List.mem_filterMap.2 ⟨_, List.mem_of_getElem? hcall, hnamed⟩) hline
    cases hsame
    exact hgiven
  · exact fun hgiven => ⟨c, m, rfl, hgiven⟩

/-- **A warning is given once for each line.** In every run of calls a warning is new just where no warning with its
line was given since the last clearing, and has been given just where one was. Lines tell two warnings apart unless one
goes on, behind the mark of its component, with what the message of the other begins with; so in a run that speaks of no
two such warnings each warning is given once. -/
theorem answered_runAll (capacity : Nat) (calls : List WarningCall) :
    AllAnswered (fun before c m => ShownSince before (Warnings.line c m)) calls
      ((runAll calls).run (Session.ofCapacity capacity)).1 ∧
    (∀ c m c' m', Warnings.line c m = Warnings.line c' m' ↔ (c = c' ∧ m = m') ∨
      (∃ mid, c' = c ++ "] " ++ mid ∧ m = mid ++ "] " ++ m') ∨ ∃ mid, c = c' ++ "] " ++ mid ∧ m' = mid ++ "] " ++ m) ∧
    (ToldApart calls → AllAnswered GivenSince calls ((runAll calls).run (Session.ofCapacity capacity)).1) := by
  have hall : AllAnswered (fun before c m => ShownSince before (Warnings.line c m)) calls
      ((runAll calls).run (Session.ofCapacity capacity)).1 := by
    have hstart : (Session.ofCapacity capacity).warnings.Tells [] := Warnings.tells_empty
    simpa only [List.nil_append] using answered_from calls hstart
  exact ⟨hall, fun _ _ _ _ => Warnings.line_eq_iff, hall.of_toldApart⟩

/-- One message of two components, given again and forgotten. -/
theorem answered_runAll_components : ∃ calls answers,
    calls = [warn "Alpha" "x", warn "Beta" "x", warn "Alpha" "x", clear, asked "Beta" "x", warn "Alpha" "x"] ∧
    ToldApart calls ∧ answers = ((runAll calls).run (Session.ofCapacity 1)).1 ∧
    answers = [some true, some true, some false, none, some false, some true] ∧
    AllAnswered GivenSince calls answers := by
  refine ⟨_, _, rfl, ?_, rfl, ?_, ?_⟩
  · decide
  · decide
  · exact (answered_runAll 1 _).2.2 (by decide)

/-- Two different warnings with one line are given once together. -/
theorem not_answered_runAll_brackets : ¬ ∀ calls : List WarningCall,
    AllAnswered GivenSince calls ((runAll calls).run Session.start).1 := by
  intro h
  have hanswers : ((runAll [warn "a] b" "c", warn "a" "b] c"]).run Session.start).1 = [some true, some false] := by
    decide
  have hsecond := (h [warn "a] b" "c", warn "a" "b] c"]).answered 1 (warn "a" "b] c") (some false) rfl
    (by rw [hanswers]; rfl)
  obtain ⟨new, hnew, hiff⟩ := hsecond
  cases hnew
  refine absurd (hiff.2 ?_) Bool.false_ne_true
  rintro ⟨before, after, hcalls, -⟩
  have hmem : warn "a" "b] c" ∈ [warn "a] b" "c", warn "a" "b] c"].take 1 := by rw [hcalls]; simp
  revert hmem
  decide

end WarningCall

end HtmlQuery
